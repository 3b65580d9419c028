import Masonry.Proofs.Save.Saved
import Masonry.Proofs.Session.Edits
import Masonry.Proofs.Session.Stones

/-!
# Insert ids

Stones that were placed, copied or separated together share an insert id, which a double click goes
by. The session counts these ids, and a document is saved with its count. So as long as a session
loads nothing but what it has saved, and the count does not start again from the least number, all
insert ids lie below the next one (`issued_run`), also where a load has gone back in time. An id that
is given to stones is new to the document, and stays with these stones for as long as the document is
continued, unless they are united with others (`run_insertIds`).
-/

namespace Masonry

open Save

variable {α : Type} [Scalar α] [Stored α]

namespace Model

variable {m m' m'' : Model α} {P : Int32 → Prop}

/-- Every stone of the second model whose insert id has the property is one of the first model that
had such an insert id, perhaps elsewhere. -/
def Traces (P : Int32 → Prop) (m m' : Model α) : Prop :=
  ∀ t ∈ m'.stones, P t.insertId → ∃ s ∈ m.stones, P s.insertId ∧ s.lasting = t.lasting

omit [Scalar α] [Stored α] in
theorem Traces.refl (P : Int32 → Prop) (m : Model α) : Traces P m m :=
  fun t ht hP => ⟨t, ht, hP, rfl⟩

omit [Scalar α] [Stored α] in
theorem Traces.trans (h : Traces P m m') (h' : Traces P m' m'') : Traces P m m'' := by
  intro t ht hP
  obtain ⟨s, hs, hPs, hst⟩ := h' t ht hP
  obtain ⟨u, hu, hPu, hus⟩ := h s hs hPs
  exact ⟨u, hu, hPu, hus.trans hst⟩

omit [Scalar α] [Stored α] in
theorem Holds.trace {t : Stone α} (h : m.Holds t) (hP : P t.insertId) :
    ∃ s ∈ m.stones, P s.insertId ∧ s.lasting = t.lasting := by
  obtain ⟨s, hs, hlasting, hinsert⟩ := h
  exact ⟨s, hs, hinsert ▸ hP, hlasting⟩

omit [Scalar α] [Stored α] in
/-- The stone with the index shares its own insert id, so that the index does not matter. -/
theorem stones_selectAt_linked {index : Nat} {hit : Stone α} (h : m.stones[index]? = some hit) :
    (m.selectAt index true).stones =
      m.stones.map fun s => if s.insertId = hit.insertId then s.select true else s := by
  rw [selectAt, h]
  dsimp only
  rw [← List.zipIdx_map_fst 0 m.stones, List.map_map, List.zipIdx_map_fst]
  refine List.map_congr_left fun q hq => ?_
  have hget : m.stones[q.2]? = some q.1 := List.mem_zipIdx_iff_getElem?.1 hq
  have hiff : (q.2 = index ∨ (true = true ∧ q.1.insertId = hit.insertId)) ↔
      q.1.insertId = hit.insertId := by
    constructor
    · rintro (hindex | ⟨-, hinsert⟩)
      · rw [hindex, h] at hget
        rw [Option.some.inj hget]
      · exact hinsert
    · exact fun hinsert => .inr ⟨rfl, hinsert⟩
  exact if_congr hiff rfl rfl

omit [Stored α] in
/-- With all that share an insert id selected, a pick selects the stones under one insert id, or none,
besides those that stay selected. -/
theorem stones_pick_linked (m : Model α) (r : Ray α) (additive : Bool) : ∃ k : Option Int32,
    (m.pick r additive true).2.stones = m.stones.map fun s =>
      s.select ((additive && s.selected) || k == some s.insertId) := by
  -- What stays selected is settled before the ray is followed.
  have hstones : (m.unmarked additive).stones =
      m.stones.map fun s => s.select (additive && s.selected) :=
    congrArg Model.stones (m.unmarked_eq additive)
  rw [pick_snd]
  generalize m.unmarked additive = start at hstones ⊢
  have hnone : start.stones = m.stones.map fun s =>
      s.select ((additive && s.selected) || (none : Option Int32) == some s.insertId) := by
    simpa using hstones
  cases start.nearest? r with
  | none => exact ⟨none, hnone⟩
  | some found =>
    obtain ⟨index, distance⟩ := found
    cases hget : start.stones[index]? with
    | none =>
      refine ⟨none, ?_⟩
      dsimp only
      rw [selectAt, hget]
      exact hnone
    | some hit =>
      refine ⟨some hit.insertId, ?_⟩
      dsimp only
      rw [stones_selectAt_linked hget, hstones, List.map_map]
      refine List.map_congr_left fun s _ => ?_
      by_cases hinsert : s.insertId = hit.insertId
      · simp [Stone.select, hinsert]
      · simp [Stone.select, hinsert, Ne.symm hinsert]

end Model

namespace Session

open Model

/-! ## The count -/

/-- Insert ids of stones are not negative and lie below the next one. -/
structure Issued (s : Session α) : Prop where
  next_nonneg : 0 ≤ s.nextInsert
  insertId : ∀ t ∈ s.model.stones, 0 ≤ t.insertId ∧ t.insertId < s.nextInsert

/-- Every load of the run reads bytes that some state before it was saved as. -/
def LoadsOwn (s : Session α) (signals : List (Signal α)) : Prop :=
  ∀ before bytes, before ++ [.load bytes] <+: signals →
    ∃ earlier, earlier <+: before ∧ (s.run earlier).save = .ok bytes

/-- The greatest insert id is never given to stones, so that the count does not start again. -/
def NeverWraps (s : Session α) (signals : List (Signal α)) : Prop :=
  ∀ before e, before ++ [e] <+: signals → (s.run before).takesInsert e = true →
    (s.run before).nextInsert ≠ Int32.maxValue

/-- What comes of a signal that opens no document are stones from before, stones that were given the
next insert id, or selected stones that took over the insert id of another one. -/
theorem comes_handle {s : Session α} (hturns : ∀ t ∈ s.model.stones, t.turns < 4) {e : Signal α}
    (hopens : e.opens s.catalog = false) {t : Stone α} (ht : t ∈ (s.handle e).2.model.stones) :
    s.model.Holds t ∨ (s.takesInsert e = true ∧ t.insertId = s.nextInsert) ∨
      (e = .unite ∧ ∃ u ∈ s.model.selection, ∃ first ∈ s.model.selection,
        u.lasting = t.lasting ∧ first.insertId = t.insertId) := by
  rcases handle_work hopens with heq | ⟨work, hwork, heq⟩ | ⟨htakes, heq⟩
  · rw [heq] at ht
    exact .inl (holds_of_mem ht)
  · rw [heq] at ht
    rcases comes_edit hturns work ht with h | hgiven | ⟨rfl, h⟩
    · exact .inl h
    · rw [insertId?_of_edit? hwork] at hgiven
      split at hgiven
      · rename_i htakes
        exact .inr (.inl ⟨htakes, (Option.some.inj hgiven).symm⟩)
      · cases hgiven
    · exact .inr (.inr ⟨(eq_of_edit? hwork).1 rfl, h⟩)
  · rw [heq] at ht
    rcases of_mem_placeAll ht with ht | ⟨hinsert, -⟩
    · exact .inl (holds_of_mem ht)
    · exact .inr (.inl ⟨htakes, hinsert⟩)

/-- The next insert id never goes down while a document is worked on, and goes up if it is given to
stones. -/
theorem nextInsert_le_handle {s : Session α} {e : Signal α} (hopens : e.opens s.catalog = false)
    (hwrap : s.takesInsert e = true → s.nextInsert ≠ Int32.maxValue) :
    s.nextInsert ≤ (s.handle e).2.nextInsert ∧
      (s.takesInsert e = true → s.nextInsert < (s.handle e).2.nextInsert) := by
  rw [nextInsert_handle s hopens]
  split
  · rename_i htakes
    have hlt : s.nextInsert < s.nextInsert + 1 := Counter.lt_add_one (hwrap htakes)
    exact ⟨Int32.le_of_lt hlt, fun _ => hlt⟩
  · rename_i htakes
    exact ⟨Int32.le_refl _, fun h => absurd h htakes⟩

theorem Issued.handle {s : Session α} (h : s.Issued) (hturns : ∀ t ∈ s.model.stones, t.turns < 4)
    {e : Signal α} (hopens : e.opens s.catalog = false)
    (hwrap : s.takesInsert e = true → s.nextInsert ≠ Int32.maxValue) : (s.handle e).2.Issued := by
  obtain ⟨hle, hlt⟩ := nextInsert_le_handle hopens hwrap
  refine ⟨Int32.le_trans h.next_nonneg hle, fun t ht => ?_⟩
  have hkept : ∀ u ∈ s.model.stones, u.insertId = t.insertId →
      0 ≤ t.insertId ∧ t.insertId < (s.handle e).2.nextInsert := by
    intro u hu hinsert
    obtain ⟨hnonneg, hbelow⟩ := h.insertId u hu
    rw [hinsert] at hnonneg hbelow
    exact ⟨hnonneg, Int32.lt_of_lt_of_le hbelow hle⟩
  rcases comes_handle hturns hopens ht with ⟨u, hu, -, hinsert⟩ | ⟨htakes, hinsert⟩ |
    ⟨-, u, -, first, hfirst, -, hinsert⟩
  · exact hkept u hu hinsert
  · rw [hinsert]
    exact ⟨h.next_nonneg, hlt htakes⟩
  · exact hkept first (List.mem_of_mem_filter hfirst) hinsert

/-- Bytes that a state was saved as bring back its next insert id, and stones that it had. -/
theorem handle_load_of_save {s : Session α} (hturns : ∀ t ∈ s.model.stones, t.turns < 4)
    {bytes : List UInt8} (h : s.save = .ok bytes) (later : Session α) :
    (later.handle (.load bytes)).2.nextInsert = s.nextInsert ∧
      ∀ t ∈ (later.handle (.load bytes)).2.model.stones, s.model.Holds t := by
  obtain ⟨d, hload, hnext, hstones⟩ := Document.load_of_saved later.catalog hturns h
  rw [handle_load hload]
  exact ⟨hnext, hstones⟩

theorem Issued.load {s : Session α} (h : s.Issued) (hturns : ∀ t ∈ s.model.stones, t.turns < 4)
    {bytes : List UInt8} (hsave : s.save = .ok bytes) (later : Session α) :
    (later.handle (.load bytes)).2.Issued := by
  obtain ⟨hnext, hstones⟩ := handle_load_of_save hturns hsave later
  refine ⟨hnext ▸ h.next_nonneg, fun t ht => ?_⟩
  obtain ⟨u, hu, -, hinsert⟩ := hstones t ht
  rw [hnext, ← hinsert]
  exact h.insertId u hu

omit [Stored α] in
theorem issued_start (c : Catalog α) (settings : Settings) : (start c settings).Issued :=
  ⟨Int32.le_refl 0, List.forall_mem_nil _⟩

/-- The count is right in every state of a run that loads nothing but what it has saved. -/
theorem issued_run {c : Catalog α} {settings : Settings} {signals : List (Signal α)}
    (hown : (start c settings).LoadsOwn signals) (hwrap : (start c settings).NeverWraps signals) :
    (start c settings).Always signals Issued := by
  -- A load goes back to some state of the past, so the invariant is needed of all of them.
  refine always_of_history (issued_start c settings) fun before e hbefore hpast => ?_
  have hturns := turns_lt_run c settings before
  cases hopens : e.opens ((start c settings).run before).catalog with
  | false => exact (hpast before List.prefix_rfl).handle hturns hopens (hwrap before e hbefore)
  | true =>
    cases e with
    | clear => exact ⟨Int32.le_refl 0, List.forall_mem_nil _⟩
    | load bytes =>
      obtain ⟨earlier, hearlier, hsave⟩ := hown before bytes hbefore
      exact (hpast earlier hearlier).load (turns_lt_run c settings earlier) hsave _
    | _ => cases hopens

/-! ## Giving an insert id to stones -/

theorem opens_of_takesInsert {s : Session α} {e : Signal α} (h : s.takesInsert e = true)
    (c : Catalog α) : e.opens c = false := by
  cases e with
  | clear => cases h
  | load bytes => cases h
  | _ => rfl

/-- A signal gives the next insert id to stones: no stone had it before, and the stones without it are
stones from before. -/
structure Gives (s : Session α) (e : Signal α) : Prop where
  unused : ∀ t ∈ s.model.stones, t.insertId ≠ s.nextInsert
  next : (s.handle e).2.nextInsert = s.nextInsert + 1
  given : ∀ t ∈ (s.handle e).2.model.stones, t.insertId = s.nextInsert ∨ s.model.Holds t

theorem Issued.gives {s : Session α} (h : s.Issued) (hturns : ∀ t ∈ s.model.stones, t.turns < 4)
    {e : Signal α} (htakes : s.takesInsert e = true) : s.Gives e where
  unused t ht heq := Int32.lt_irrefl (heq ▸ (h.insertId t ht).2)
  next := by
    rw [nextInsert_handle s (opens_of_takesInsert htakes s.catalog), if_pos htakes]
  given t ht := by
    rcases comes_handle hturns (opens_of_takesInsert htakes s.catalog) ht with
      hheld | ⟨-, hinsert⟩ | ⟨rfl, -⟩
    · exact .inr hheld
    · exact .inl hinsert
    · cases htakes

/-! ## Continued documents -/

/-- The selected stones all have the given insert id, or all smaller ones, or all greater ones. -/
def SelectsAlike (s : Session α) (n : Int32) : Prop :=
  ∀ t ∈ s.model.selection, ∀ u ∈ s.model.selection,
    (t.insertId = n ↔ u.insertId = n) ∧ (t.insertId < n ↔ u.insertId < n)

/-- The document of the second state of a run continues that of the first: it has been worked on, or
saved and loaded again. Stones under the insert id `n`, stones under smaller ones and stones under
greater ones are not united with each other. -/
inductive Continues (s : Session α) (n : Int32) (first : List (Signal α)) : List (Signal α) → Prop where
  | refl : Continues s n first first
  | work {later : List (Signal α)} {e : Signal α} (h : Continues s n first later)
      (hopens : e.opens s.catalog = false) (hunite : e = .unite → (s.run later).SelectsAlike n) :
      Continues s n first (later ++ [e])
  | reload {earlier later : List (Signal α)} {bytes : List UInt8} (h : Continues s n first earlier)
      (hearlier : earlier <+: later) (hsave : (s.run earlier).save = .ok bytes) :
      Continues s n first (later ++ [.load bytes])

theorem traces_handle {s : Session α} {P : Int32 → Prop} (hturns : ∀ t ∈ s.model.stones, t.turns < 4)
    {e : Signal α} (hopens : e.opens s.catalog = false) (hnext : ¬P s.nextInsert)
    (hunite : e = .unite → ∀ t ∈ s.model.selection, ∀ u ∈ s.model.selection,
      P t.insertId → P u.insertId) :
    Traces P s.model (s.handle e).2.model := by
  intro t ht hP
  rcases comes_handle hturns hopens ht with hheld | ⟨-, hinsert⟩ | ⟨he, u, hu, first, hfirst, hlasting, hinsert⟩
  · exact hheld.trace hP
  · rw [hinsert] at hP
    exact absurd hP hnext
  · rw [← hinsert] at hP
    exact ⟨u, List.mem_of_mem_filter hu, hunite he first hfirst u hu hP, hlasting⟩

/-- In the second state the insert id `n` is no longer the next one, and the stones under it, and
those under smaller ones, are such stones of the first. -/
structure Parted (n : Int32) (s later : Session α) : Prop where
  lt_next : n < later.nextInsert
  given : Traces (· = n) s.model later.model
  older : Traces (· < n) s.model later.model

theorem Parted.handle {n : Int32} {s later : Session α} (h : Parted n s later)
    (hturns : ∀ t ∈ later.model.stones, t.turns < 4) {e : Signal α}
    (hopens : e.opens later.catalog = false)
    (hwrap : later.takesInsert e = true → later.nextInsert ≠ Int32.maxValue)
    (hunite : e = .unite → later.SelectsAlike n) : Parted n s (later.handle e).2 where
  lt_next := Int32.lt_of_lt_of_le h.lt_next (nextInsert_le_handle hopens hwrap).1
  -- Stones that are given an insert id from now on are given a greater one than `n`.
  given := by
    refine h.given.trans (traces_handle hturns hopens (fun heq => ?_) ?_)
    · exact Int32.lt_irrefl (heq ▸ h.lt_next)
    · exact fun he t ht u hu => (hunite he t ht u hu).1.1
  older := by
    refine h.older.trans (traces_handle hturns hopens (fun hlt => ?_) ?_)
    · exact Int32.lt_irrefl (Int32.lt_trans hlt h.lt_next)
    · exact fun he t ht u hu => (hunite he t ht u hu).2.1

theorem Parted.load {n : Int32} {s earlier : Session α} (h : Parted n s earlier)
    (hturns : ∀ t ∈ earlier.model.stones, t.turns < 4) {bytes : List UInt8}
    (hsave : earlier.save = .ok bytes) (later : Session α) :
    Parted n s (later.handle (.load bytes)).2 := by
  obtain ⟨hnext, hstones⟩ := handle_load_of_save hturns hsave later
  have htraces : ∀ P, Traces P earlier.model (later.handle (.load bytes)).2.model :=
    fun P t ht hP => (hstones t ht).trace hP
  exact ⟨hnext ▸ h.lt_next, h.given.trans (htraces _), h.older.trans (htraces _)⟩

theorem parted_run {c : Catalog α} {settings : Settings} {signals first later : List (Signal α)}
    {n : Int32} (hwrap : (start c settings).NeverWraps signals)
    (hfirst : n < ((start c settings).run first).nextInsert)
    (h : (start c settings).Continues n first later) (hlater : later <+: signals) :
    Parted n ((start c settings).run first) ((start c settings).run later) := by
  induction h with
  | refl => exact ⟨hfirst, .refl _ _, .refl _ _⟩
  | @work later e _ hopens hunite ih =>
    rw [run_append_singleton]
    refine (ih ((List.prefix_append _ _).trans hlater)).handle (turns_lt_run c settings later) ?_
      (hwrap later e hlater) hunite
    rwa [catalog_run]
  | @reload earlier later bytes _ hearlier hsave ih =>
    rw [run_append_singleton]
    have hpast : earlier <+: signals := (hearlier.trans (List.prefix_append _ _)).trans hlater
    exact (ih hpast).load (turns_lt_run c settings earlier) hsave _

/-! ## Double clicks -/

/-- A double click selects the stones under one insert id, or none, besides those that stay
selected. -/
theorem stones_doubleClick (s : Session α) (ray : Ray α) : ∃ k : Option Int32,
    (s.handle (.click ray true)).2.model.stones = s.model.stones.map fun t =>
      t.select (((s.shift || s.mode ≠ .select) && t.selected) || k == some t.insertId) := by
  by_cases hmode : s.mode = .select
  · obtain ⟨k, hk⟩ := stones_pick_linked s.model ray s.shift
    refine ⟨k, ?_⟩
    show (s.click ray true).2.model.stones = _
    rw [click, if_neg (not_not_intro hmode)]
    simpa [hmode] using hk
  · refine ⟨none, ?_⟩
    show (s.click ray true).2.model.stones = _
    rw [click, if_pos hmode]
    have hsame : ∀ t ∈ s.model.stones,
        t.select (((s.shift || s.mode ≠ .select) && t.selected) || none == some t.insertId) = t := by
      intro t _
      simp [hmode, Stone.select]
    exact ((List.map_congr_left hsame).trans (List.map_id _)).symm

/-- What a double click in the second state links: stones that had the insert id `n` in the first
state, or stones that had smaller ones, or stones that have a greater one by now. -/
def LinksApart (n : Int32) (s later : Session α) : Prop :=
  ∀ ray, ∃ k : Option Int32,
    (later.handle (.click ray true)).2.model.stones = later.model.stones.map (fun t =>
      t.select (((later.shift || later.mode ≠ .select) && t.selected) || k == some t.insertId)) ∧
    ((∀ t ∈ later.model.stones, k = some t.insertId →
        ∃ u ∈ s.model.stones, u.insertId = n ∧ u.lasting = t.lasting) ∨
      (∀ t ∈ later.model.stones, k = some t.insertId →
        ∃ u ∈ s.model.stones, u.insertId < n ∧ u.lasting = t.lasting) ∨
      ∀ t ∈ later.model.stones, k = some t.insertId → n < t.insertId)

theorem Parted.linksApart {n : Int32} {s later : Session α} (h : Parted n s later) :
    LinksApart n s later := by
  intro ray
  obtain ⟨k, hk⟩ := stones_doubleClick later ray
  refine ⟨k, hk, ?_⟩
  cases k with
  | none => exact .inl nofun
  | some k =>
    rcases Int.lt_trichotomy k.toInt n.toInt with hlt | heq | hlt
    · refine .inr (.inl fun t ht hkt => h.older t ht ?_)
      rw [← Option.some.inj hkt]
      exact Int32.lt_iff_toInt_lt.2 hlt
    · refine .inl fun t ht hkt => h.given t ht ?_
      rw [← Option.some.inj hkt]
      exact Int32.toInt.inj heq
    · refine .inr (.inr fun t ht hkt => ?_)
      rw [← Option.some.inj hkt]
      exact Int32.lt_iff_toInt_lt.2 hlt

/-- In every run that loads nothing but what it has saved and in which the count of insert ids does
not start again, the insert ids of all stones lie below the next one. So an insert id that is given to
stones is new, and as long as the document is continued a double click links the stones that got it
only with each other. -/
theorem run_insertIds (c : Catalog α) (settings : Settings) (signals : List (Signal α))
    (hown : (start c settings).LoadsOwn signals) (hwrap : (start c settings).NeverWraps signals) :
    ((start c settings).Always signals fun s =>
      ∀ t ∈ s.model.stones, 0 ≤ t.insertId ∧ t.insertId < s.nextInsert) ∧
    ∀ before e, before ++ [e] <+: signals →
      ((start c settings).run before).takesInsert e = true →
      ((start c settings).run before).Gives e ∧
      ∀ later, later <+: signals →
        (start c settings).Continues ((start c settings).run before).nextInsert (before ++ [e]) later →
        LinksApart ((start c settings).run before).nextInsert ((start c settings).run (before ++ [e]))
          ((start c settings).run later) := by
  have hissued := issued_run hown hwrap
  refine ⟨fun before hbefore => (hissued before hbefore).insertId, ?_⟩
  intro before e hbefore htakes
  have hpast : before <+: signals := (List.prefix_append _ _).trans hbefore
  have hgives := (hissued before hpast).gives (turns_lt_run c settings before) htakes
  refine ⟨hgives, fun later hlater hcontinues => ?_⟩
  refine (parted_run hwrap ?_ hcontinues hlater).linksApart
  rw [run_append_singleton, hgives.next]
  exact Counter.lt_add_one (hwrap before e hbefore htakes)

/-! ## A stone and its copy -/

theorem loadsOwn_of_forall {s : Session α} {signals : List (Signal α)}
    (h : ∀ bytes, .load bytes ∉ signals) : s.LoadsOwn signals :=
  fun _ bytes hbefore => absurd (hbefore.subset (by simp)) (h bytes)

theorem LoadsOwn.append_singleton {s : Session α} {signals : List (Signal α)} (h : s.LoadsOwn signals)
    {e : Signal α} (he : ∀ bytes, e = .load bytes →
      ∃ earlier, earlier <+: signals ∧ (s.run earlier).save = .ok bytes) :
    s.LoadsOwn (signals ++ [e]) := by
  intro before bytes hbefore
  rcases List.prefix_concat_iff.1 hbefore with heq | hearlier
  · obtain ⟨rfl, hlast⟩ := List.append_inj' heq rfl
    exact he bytes (List.singleton_inj.1 hlast).symm
  · exact h before bytes hearlier

theorem neverWraps_of_always {s : Session α} {signals : List (Signal α)}
    (h : s.Always signals fun t => t.nextInsert ≠ Int32.maxValue) : s.NeverWraps signals :=
  fun before _ hbefore _ => h before ((List.prefix_append _ _).trans hbefore)

/-- A stone is placed and selected. -/
def single : List (Signal Binary64) :=
  [.press, .release, .selectMode, .click ⟨⟨0, 0, -1⟩, ⟨0, 0, 1⟩⟩ false]

/-- It is copied. -/
def doubled : List (Signal Binary64) := single ++ [.copySelection ⟨5, 0, 0⟩]

/-- What the stone and its copy are saved as. -/
def doubledBytes : List UInt8 :=
  (Write.run none (((start .points .default).run doubled).model.archive 2).writes).1

/-- The stone and its copy are saved and loaded again. -/
def reopened : List (Signal Binary64) := doubled ++ [.load doubledBytes]

theorem run_insertIds_reopened :
    (start .points .default).LoadsOwn reopened ∧ (start .points .default).NeverWraps reopened ∧
      ((start .points .default).run reopened).model.stones.map (·.insertId) = [0, 1] ∧
      (∀ t ∈ ((start .points .default).run reopened).model.stones,
        0 ≤ t.insertId ∧ t.insertId < ((start .points .default).run reopened).nextInsert) ∧
      ((start .points .default).run single).Gives (.copySelection ⟨5, 0, 0⟩) ∧
      LinksApart ((start .points .default).run single).nextInsert
        ((start .points .default).run doubled) ((start .points .default).run reopened) := by
  have hsave : ((start .points .default).run doubled).save = .ok doubledBytes := by decide +kernel
  have hown : (start .points .default).LoadsOwn reopened := by
    refine LoadsOwn.append_singleton (loadsOwn_of_forall (by simp [doubled, single])) ?_
    intro bytes hbytes
    obtain rfl := Signal.load.inj hbytes
    exact ⟨doubled, List.prefix_rfl, hsave⟩
  have hwrap : (start .points .default).NeverWraps reopened :=
    neverWraps_of_always (by decide +kernel)
  obtain ⟨hissued, hgiven⟩ := run_insertIds .points .default reopened hown hwrap
  obtain ⟨hgives, hlinks⟩ := hgiven single (.copySelection ⟨5, 0, 0⟩) (List.prefix_append _ _) rfl
  exact ⟨hown, hwrap, by decide +kernel, hissued reopened List.prefix_rfl, hgives,
    hlinks reopened List.prefix_rfl (.reload .refl List.prefix_rfl hsave)⟩

/-- The stone and its copy are selected for an edit, and the selection is dropped. -/
def joined (e : Signal Binary64) : List (Signal Binary64) :=
  doubled ++ [.setShift true, .click ⟨⟨Scalar.ofInt 5, 0, -1⟩, ⟨0, 0, 1⟩⟩ false, e,
    .setShift false, .insertMode, .selectMode]

/-- Stones that were placed apart are linked if they are united, or separated from all others
together: a double click on the copy selects the older stone, too. -/
theorem joined_links_older :
    ((start .points .default).LoadsOwn (joined .unite) ∧
      (start .points .default).NeverWraps (joined .unite)) ∧
    ((start .points .default).LoadsOwn (joined .separate) ∧
      (start .points .default).NeverWraps (joined .separate)) ∧
    ((start .points .default).run single).takesInsert (.copySelection ⟨5, 0, 0⟩) = true ∧
    ((start .points .default).run single).model.stones.map (fun t => (t.id, t.insertId)) = [(0, 0)] ∧
    ((start .points .default).run doubled).model.stones.map (fun t => (t.id, t.insertId)) =
      [(0, 0), (1, 1)] ∧
    ((start .points .default).run (joined .unite)).model.selection = [] ∧
    (((start .points .default).run (joined .unite)).handle
      (.click ⟨⟨Scalar.ofInt 5, 0, -1⟩, ⟨0, 0, 1⟩⟩ true)).2.model.selection.map (·.id) = [0, 1] ∧
    ((start .points .default).run (joined .separate)).model.selection = [] ∧
    (((start .points .default).run (joined .separate)).handle
      (.click ⟨⟨Scalar.ofInt 5, 0, -1⟩, ⟨0, 0, 1⟩⟩ true)).2.model.selection.map (·.id) = [0, 1] := by
  refine ⟨⟨loadsOwn_of_forall (by simp [joined, doubled, single]), neverWraps_of_always ?_⟩,
    ⟨loadsOwn_of_forall (by simp [joined, doubled, single]), neverWraps_of_always ?_⟩, rfl, ?_⟩
  all_goals decide +kernel

end Session

end Masonry
