import Masonry.Proofs.Model.Groups
import Masonry.Proofs.Session.Edits
import Masonry.Proofs.Session.Stones

/-!
# Groups of a session

While a document is worked on and no stone gets the greatest id, a group keeps its stones: those that
are gone do not come back, and none joins it (`run_retains`). A new group has an id of its own and
remembers the selection, unless a document was loaded whose next group id does not lie above its group
ids (`run_remembers`): loading raises the next id of a stone above those in use, and takes over the
next id of a group as it is.
-/

namespace Masonry

open Save

variable {α : Type} [Scalar α] [Stored α]

namespace Model

omit [Stored α] in
theorem dated_empty : (empty : Model α).Dated := ⟨ordered_empty, by simp [empty]⟩

/-- Of the members of a loaded group only those are kept whose stones are there. -/
theorem dated_ofArchive (c : Catalog α) (a : Archive)
    (hmax : Int32.maxValue ∉ (ofArchive c a).ids) : (ofArchive c a).Dated := by
  have hordered := ordered_ofArchive c a hmax
  refine ⟨hordered, ?_⟩
  rw [groups_ofArchive]
  refine List.forall_mem_map.2 fun g _ k hk => ?_
  exact hordered.lt_next k (by simpa using (List.mem_filter.1 hk).2)

end Model

namespace Session

open Model

/-! ## Stones of a group -/

theorem dated_handle {s : Session α} (h : s.model.Dated) (hturns : ∀ t ∈ s.model.stones, t.turns < 4)
    (e : Signal α) (hmax : Int32.maxValue ∉ (s.handle e).2.model.ids) :
    (s.handle e).2.model.Dated := by
  have hstep := handle_step s e
  generalize (s.handle e).2.model = m at hstep hmax ⊢
  cases hstep with
  | keep e => exact h
  | edit work hwork => exact h.edit hturns work hmax
  | release hmode => exact h.placeAll hmax
  | clear => exact dated_empty
  | load hdecode => exact dated_ofArchive _ _ hmax

/-- Work on a document leads to a later model. -/
theorem succeeds_handle {s : Session α} (hturns : ∀ t ∈ s.model.stones, t.turns < 4) {e : Signal α}
    (hopens : e.opens s.catalog = false) (hmax : Int32.maxValue ∉ (s.handle e).2.model.ids) :
    s.model.Succeeds (s.handle e).2.model := by
  rcases handle_work hopens with heq | ⟨work, -, heq⟩ | ⟨-, heq⟩
  · rw [heq]
    exact .refl _
  · rw [heq] at hmax ⊢
    exact succeeds_edit hturns work hmax
  · rw [heq] at hmax ⊢
    exact succeeds_placeAll hmax

/-- Work on a document leaves a group as it is, unless it deletes it. -/
theorem group?_handle {s : Session α} {e : Signal α} {id : Int32} (hopens : e.opens s.catalog = false)
    (hkeep : e ≠ .deleteGroup id) (hgroup : (s.model.group? id).isSome) :
    (s.handle e).2.model.group? id = s.model.group? id := by
  rcases handle_work hopens with heq | ⟨work, hwork, heq⟩ | ⟨-, heq⟩
  · rw [heq]
  · rw [heq]
    exact group?_edit work (fun hdelete => hkeep ((eq_of_edit? hwork).2 id hdelete)) hgroup
  · have hgroups := (placeAll_places s.model s.catalog s.nextInsert s.preview).frame.groups
    rw [heq, group?, group?, hgroups]

/-! ## Runs -/

section

variable {c : Catalog α} {settings : Settings} {before between : List (Signal α)} {id : Int32}

/-- While no stone gets the greatest id, the members of groups lie below the next id. -/
theorem dated_run (hmax : (start c settings).Always before fun s => Int32.maxValue ∉ s.model.ids) :
    (start c settings).Always before fun s => s.model.Dated := by
  refine always_of_step dated_empty fun earlier e hearlier h => ?_
  refine dated_handle h (turns_lt_run c settings earlier) e ?_
  rw [← run_append_singleton]
  exact hmax _ hearlier

theorem succeeds_step {e : Signal α} (hopens : e.opens c = false)
    (hmax : Int32.maxValue ∉ ((start c settings).run (before ++ [e])).model.ids) :
    ((start c settings).run before).model.Succeeds ((start c settings).run (before ++ [e])).model := by
  rw [run_append_singleton] at hmax ⊢
  have hcatalog : ((start c settings).run before).catalog = c := catalog_run _ before
  refine succeeds_handle (turns_lt_run c settings before) ?_ hmax
  rw [hcatalog]
  exact hopens

/-- As long as one document is worked on, its models come one after the other. -/
theorem succeeds_run (hopens : ∀ e ∈ between, e.opens c = false)
    (hmax : (start c settings).Always (before ++ between) fun s => Int32.maxValue ∉ s.model.ids) :
    ((start c settings).run before).model.Succeeds
      ((start c settings).run (before ++ between)).model := by
  induction between using List.reverseRecOn with
  | nil =>
    rw [List.append_nil]
    exact .refl _
  | append_singleton between e ih =>
    obtain ⟨hearlier, he⟩ := List.forall_mem_append.1 hopens
    rw [← List.append_assoc] at hmax ⊢
    have hprefix : before ++ between <+: before ++ between ++ [e] := List.prefix_append _ _
    refine (ih hearlier (hmax.of_prefix hprefix)).trans ?_
    exact succeeds_step (he e (List.mem_singleton_self e)) (hmax _ List.prefix_rfl)

/-- What is placed later gets an id that was still to come. -/
theorem nextStone_le_of_placed {middle : List (Signal α)} {e : Signal α} {t : Stone α}
    (hopens : ∀ e' ∈ middle ++ [e], e'.opens c = false)
    (hmax : (start c settings).Always (before ++ middle ++ [e]) fun s => Int32.maxValue ∉ s.model.ids)
    (ht : t ∈ ((start c settings).run (before ++ middle ++ [e])).model.stones)
    (hnew : t.id ∉ ((start c settings).run (before ++ middle)).model.ids) :
    ((start c settings).run before).model.nextStone ≤ t.id := by
  obtain ⟨hearlier, he⟩ := List.forall_mem_append.1 hopens
  have hstep := succeeds_step (he e (List.mem_singleton_self e)) (hmax _ List.prefix_rfl)
  have hupto := succeeds_run hearlier (hmax.of_prefix (List.prefix_append _ _))
  rcases hstep.stones t ht with ⟨u, hu, hlasting⟩ | hle
  · rw [← Stone.id_eq_of_lasting_eq hlasting] at hnew
    exact absurd (List.mem_map_of_mem hu) hnew
  · exact Int32.le_trans hupto.next_le hle

theorem group?_run {s : Session α} (hgroup : (s.model.group? id).isSome)
    (hwork : ∀ e ∈ between, e.opens s.catalog = false ∧ e ≠ .deleteGroup id) :
    (s.run between).model.group? id = s.model.group? id := by
  induction between using List.reverseRecOn with
  | nil => rfl
  | append_singleton between e ih =>
    obtain ⟨hearlier, he⟩ := List.forall_mem_append.1 hwork
    obtain ⟨hopens, hkeep⟩ := he e (List.mem_singleton_self e)
    have hsame := ih hearlier
    rw [run_append_singleton, ← hsame]
    rw [← hsame] at hgroup
    exact group?_handle (by rwa [catalog_run]) hkeep hgroup

end

/-- What work on a document leaves of a group. -/
structure Retains (s : Session α) (between : List (Signal α)) (id : Int32) : Prop where
  /-- The stones of the group are some of those from before, each with its id, color, type code and
  rotation. -/
  stones : (((s.run between).model.groupStones id).map Stone.lasting).Sublist
    ((s.model.groupStones id).map Stone.lasting)
  /-- Those that are still there are still in the group. -/
  members : ∀ t ∈ (s.run between).model.stones, t.id ∈ (s.model.groupStones id).map (·.id) →
    t ∈ (s.run between).model.groupStones id
  /-- What was placed meanwhile is not in the group. -/
  placed : ∀ middle e, middle ++ [e] <+: between →
    ∀ t ∈ (s.run (middle ++ [e])).model.stones, t.id ∉ (s.run middle).model.ids →
      t.id ∉ ((s.run between).model.groupStones id).map (·.id)
  /-- The next move takes the stones of the group along. -/
  moves : ∀ offset, ∀ t ∈ (s.run between).model.groupStones id,
    ∀ u ∈ ((s.run between).handle (.moveSelection offset)).2.model.stones, t.id = u.id →
      u ∈ ((s.run between).handle (.moveSelection offset)).2.model.groupStones id ∧
        t.lasting = u.lasting ∧
        u.placement = if t.selected then t.placement.shifted offset else t.placement

/-- In every run in which no stone gets the greatest id, a group that is not deleted keeps its stones
for as long as its document is worked on. -/
theorem run_retains (c : Catalog α) (settings : Settings) (before between : List (Signal α)) (id : Int32)
    (hmax : (start c settings).Always (before ++ between) fun s => Int32.maxValue ∉ s.model.ids)
    (hgroup : (((start c settings).run before).model.group? id).isSome)
    (hwork : ∀ e ∈ between, e.opens c = false ∧ e ≠ .deleteGroup id) :
    ((start c settings).run before).Retains between id := by
  have hopens : ∀ e ∈ between, e.opens c = false := fun e he => (hwork e he).1
  have hsucceeds := succeeds_run hopens hmax
  have hdated := dated_run (hmax.of_prefix (List.prefix_append _ _)) before List.prefix_rfl
  have hnodup := (dated_run hmax _ List.prefix_rfl).nodup
  have hmembers : ((start c settings).run (before ++ between)).model.membersOf id =
      ((start c settings).run before).model.membersOf id := by
    rw [membersOf, membersOf, run_append, group?_run hgroup]
    rwa [catalog_run]
  constructor
  · rw [← run_append]
    exact hsucceeds.groupStones_sublist hdated hmembers
  · rw [← run_append]
    intro t ht hid
    rw [map_id_groupStones] at hid
    rw [mem_groupStones_iff hnodup, hmembers]
    exact ⟨ht, List.mem_of_mem_filter hid⟩
  · intro middle e hmiddle
    obtain ⟨rest, rfl⟩ := hmiddle
    rw [← run_append, ← run_append, ← run_append, map_id_groupStones, hmembers, ← List.append_assoc]
    intro t ht hnew hid
    have hnext : before ++ middle ++ [e] <+: before ++ (middle ++ [e] ++ rest) := by simp
    have hle := nextStone_le_of_placed (fun e' he' => hopens e' (List.mem_append_left _ he'))
      (hmax.of_prefix hnext) ht hnew
    obtain ⟨g, hg, hmember⟩ := mem_membersOf (List.mem_of_mem_filter hid)
    exact Int32.not_lt.2 hle (hdated.members_lt g hg t.id hmember)
  · rw [← run_append]
    intro offset t ht u hu hid
    exact mem_groupStones_moveSelection (turns_lt_run c settings (before ++ between)) hnodup ht hu hid

/-- A wall of two stones, which are selected and made a group. -/
def wall : List (Signal Binary64) :=
  [.press, .release, .selectMode, .click ⟨⟨0, 0, -1⟩, ⟨0, 0, 1⟩⟩ false, .copySelection ⟨5, 0, 0⟩,
    .setShift true, .click ⟨⟨Scalar.ofInt 5, 0, -1⟩, ⟨0, 0, 1⟩⟩ false, .makeGroup "wall"]

/-- One of the stones of the wall is deleted, the other is moved, and a third is placed. -/
def rebuilding : List (Signal Binary64) :=
  [.setShift false, .click ⟨⟨Scalar.ofInt 5, 0, -1⟩, ⟨0, 0, 1⟩⟩ false, .deleteSelection,
    .click ⟨⟨0, 0, -1⟩, ⟨0, 0, 1⟩⟩ false, .moveSelection ⟨0, 0, 5⟩, .insertMode, .press, .release]

theorem run_retains_wall :
    (((start .points .default).run wall).model.groupStones 0).map (·.id) = [0, 1] ∧
      (((start .points .default).run (wall ++ rebuilding)).model.groupStones 0).map (·.id) = [0] ∧
      ((start .points .default).run (wall ++ rebuilding)).model.ids = [0, 2] ∧
      (start .points .default).Always (wall ++ rebuilding)
        (fun s => Int32.maxValue ∉ s.model.ids) ∧
      (((start .points .default).run wall).model.group? 0).isSome ∧
      (∀ e ∈ rebuilding, e.opens Catalog.points = false ∧ e ≠ .deleteGroup 0) ∧
      ((start .points .default).run wall).Retains rebuilding 0 :=
  have hmax : (start .points .default).Always (wall ++ rebuilding)
      (fun s => Int32.maxValue ∉ s.model.ids) := by decide +kernel
  have hgroup : (((start .points .default).run wall).model.group? 0).isSome := by decide +kernel
  have hwork : ∀ e ∈ rebuilding, e.opens Catalog.points = false ∧ e ≠ .deleteGroup 0 := by
    decide +kernel
  ⟨by decide +kernel, by decide +kernel, by decide +kernel, hmax, hgroup, hwork,
    run_retains .points .default wall rebuilding 0 hmax hgroup hwork⟩

/-! ## New groups -/

/-- Group ids stay below the next one, unless a document is loaded in which they do not. -/
theorem tallied_handle {s : Session α} (h : s.model.Tallied) (e : Signal α)
    (hload : ∀ bytes d, e = .load bytes → Document.load s.catalog bytes = .ok d → d.model.Tallied)
    (hmax : Int32.maxValue ∉ (s.handle e).2.model.groups.map (·.id)) :
    (s.handle e).2.model.Tallied := by
  have hstep := handle_step s e
  generalize (s.handle e).2.model = m at hstep hmax ⊢
  cases hstep with
  | keep e => exact h
  | edit work hwork => exact h.edit work hmax
  | release hmode =>
    have hframe := (placeAll_places s.model s.catalog s.nextInsert s.preview).frame
    rw [Tallied, hframe.groups, hframe.nextGroup]
    exact h
  | clear => exact List.forall_mem_nil _
  | @load bytes rest a hdecode =>
    exact hload bytes _ rfl (Document.load_eq_ok_iff.2 ⟨a, rest, hdecode, rfl⟩)

/-- A group that is made of the selection can be told from all others, and selecting it restores the
selection. -/
structure Remembers (s : Session α) (name : String) : Prop where
  reply : (s.handle (.makeGroup name)).1 = .group s.model.nextGroup
  fresh : s.model.nextGroup ∉ s.model.groups.map (·.id)
  found : ((s.handle (.makeGroup name)).2.handle (.selectGroup s.model.nextGroup)).1 = .found true
  /-- The stones are selected whose ids are those of selected stones. -/
  selects : ((s.handle (.makeGroup name)).2.handle (.selectGroup s.model.nextGroup)).2.model.stones =
    s.model.stones.map fun t => t.select ((s.model.selection.map (·.id)).contains t.id)
  /-- These are the selected stones and no others, where ids differ. -/
  restores : s.model.ids.Nodup →
    ((s.handle (.makeGroup name)).2.handle (.selectGroup s.model.nextGroup)).2.model.stones =
      s.model.stones

/-- In every run a new group has an id that no group has and remembers the selection, if the next
group id of every document that is loaded lies above its group ids and no group gets the greatest
id. -/
theorem run_remembers (c : Catalog α) (settings : Settings) (signals : List (Signal α)) (name : String)
    (hload : ∀ bytes d, .load bytes ∈ signals → Document.load c bytes = .ok d → d.model.Tallied)
    (hmax : (start c settings).Always signals fun s =>
      Int32.maxValue ∉ s.model.groups.map (·.id)) :
    ((start c settings).run signals).Remembers name := by
  have halways : (start c settings).Always signals fun s => s.model.Tallied := by
    refine always_of_step (List.forall_mem_nil _) fun before e hbefore h => ?_
    refine tallied_handle h e (fun bytes d he hd => ?_) ?_
    · rw [catalog_run] at hd
      exact hload bytes d (hbefore.subset (by simp [he])) hd
    · rw [← run_append_singleton]
      exact hmax _ hbefore
  have hfresh := (halways signals List.prefix_rfl).notMem
  generalize (start c settings).run signals = s at hfresh ⊢
  have hselect := selectGroup_makeGroup hfresh name
  have hstones : ((s.model.makeGroup name).2.selectGroup s.model.nextGroup).2.stones =
      s.model.stones.map fun t => t.select ((s.model.selection.map (·.id)).contains t.id) := by
    rw [hselect]
    rfl
  constructor
  · rfl
  · exact hfresh
  · show Reply.found ((s.model.makeGroup name).2.selectGroup s.model.nextGroup).1 = _
    rw [hselect]
  · exact hstones
  · exact fun hnodup => hstones.trans (map_select_selection hnodup)

/-- A stone in a group with the given next id of a group. -/
def housed (nextGroup : Int32) : Archive where
  nextInsert := 0
  origin := ⟨0, 0, 0⟩
  stones := [⟨0, 0, .white, 432, 0, ⟨0, 0, 0⟩⟩]
  nextStone := 1
  nextGroup := nextGroup
  groups := [⟨0, "a", [0]⟩]

/-- A session in which the bytes of an archive are loaded and its stone is selected. -/
def housing (nextGroup : Int32) : List (Signal Binary64) :=
  [.load (Write.run none (housed nextGroup).writes).1, .selectMode, .click ⟨⟨0, 0, -1⟩, ⟨0, 0, 1⟩⟩ false]

theorem run_remembers_housing :
    (∀ bytes (d : Document Binary64), .load bytes ∈ housing 1 →
      Document.load .points bytes = .ok d → d.model.Tallied) ∧
    (start .points .default).Always (housing 1)
      (fun s => Int32.maxValue ∉ s.model.groups.map (·.id)) ∧
    ((start .points .default).run (housing 1)).model.selection.map (·.id) = [0] ∧
    ((start .points .default).run (housing 1)).Remembers "b" := by
  have hload : ∀ bytes (d : Document Binary64), .load bytes ∈ housing 1 →
      Document.load .points bytes = .ok d → d.model.Tallied := by
    intro bytes d hmem hd
    obtain rfl : bytes = (Write.run none (housed 1).writes).1 := by simpa [housing] using hmem
    have hhoused : Document.load .points (Write.run none (housed 1).writes).1 =
        .ok ⟨0, .ofArchive .points (housed 1)⟩ := by decide +kernel
    cases hd.symm.trans hhoused
    decide +kernel
  have hmax : (start .points .default).Always (housing 1)
      (fun s => Int32.maxValue ∉ s.model.groups.map (·.id)) := by decide +kernel
  exact ⟨hload, hmax, by decide +kernel, run_remembers .points .default (housing 1) "b" hload hmax⟩

/-- A session in which a document was loaded whose next group id is in use. -/
def rehoused : Session Binary64 :=
  (start .points .default).run [.load (Write.run none (housed 0).writes).1]

/-- The new group gets the id of the old one, and selecting it selects a stone of the old group,
though none was selected. -/
theorem rehoused_repeats_group_id :
    (rehoused.handle (.makeGroup "b")).1 = .group 0 ∧
      0 ∈ rehoused.model.groups.map (·.id) ∧
      rehoused.model.selection = [] ∧
      ((rehoused.handle (.makeGroup "b")).2.handle (.selectGroup 0)).1 = .found true ∧
      ((rehoused.handle (.makeGroup "b")).2.handle (.selectGroup 0)).2.model.selection.map (·.id) =
        [0] := by
  refine ⟨congrArg Reply.group ?_, ?_, ?_, congrArg Reply.found ?_, ?_⟩
  all_goals decide +kernel

end Session

end Masonry
