import RigLowering.Proofs.Journal
import RigLowering.Proofs.LinkTransfers

namespace RigLowering

namespace Journal

variable {α : Type}

/-- Journals that hold the same entries, in whichever order, and so restore the same. -/
structure Alike (first second : Journal α) : Prop where
  size : first.size = second.size
  saved : first.saved.Perm second.saved
  restored : ∀ arena, first.restore arena = second.restore arena

/-- What is saved when a place is about to be touched: its entry, or nothing. -/
def fresh (journal : Journal α) (arena : Array α) (index : Nat) : List (Nat × α) :=
  if index < journal.size && !journal.holds index then (arena[index]?).toList.map (index, ·) else []

variable {journal : Journal α} {arena earlier later laterOther : Array α} {index other : Nat}

theorem saved_record :
    (journal.record arena index).saved = journal.fresh arena index ++ journal.saved := by
  unfold record fresh
  split
  · cases arena[index]? with
    | none => rfl
    | some entry => rfl
  · rfl

theorem mem_fresh {entry : Nat × α} (member : entry ∈ journal.fresh arena index) :
    entry.1 = index ∧ arena[entry.1]? = some entry.2 := by
  unfold fresh at member
  split at member
  · obtain ⟨value, found, rfl⟩ := List.mem_map.mp member
    exact ⟨rfl, Option.mem_toList.mp found⟩
  · cases member

theorem fresh_record (different : index ≠ other) (same : later[other]? = earlier[other]?) :
    (journal.record arena index).fresh later other = journal.fresh earlier other := by
  have held : (journal.record arena index).holds other = journal.holds other := by
    unfold holds
    rw [saved_record, List.any_append, List.any_eq_false.mpr, Bool.false_or]
    intro entry member
    simp [(mem_fresh member).1, different]
  unfold fresh
  rw [size_record, held, same]

/-- The second place is saved as it was, provided that it has not been touched with the first. -/
theorem saved_record_record (different : index ≠ other) (same : later[other]? = earlier[other]?) :
    ((journal.record earlier index).record later other).saved =
      (journal.fresh earlier other ++ journal.fresh earlier index) ++ journal.saved := by
  rw [saved_record, saved_record, fresh_record different same, List.append_assoc]

/-- Entries of one arena may be put back in any order. -/
theorem foldl_set_perm {first second : List (Nat × α)} (perm : first.Perm second)
    (entries : ∀ entry ∈ first, arena[entry.1]? = some entry.2) (current : Array α) :
    first.foldl (fun arena entry => arena.setIfInBounds entry.1 entry.2) current =
      second.foldl (fun arena entry => arena.setIfInBounds entry.1 entry.2) current := by
  refine perm.foldl_eq' ?_ current
  intro entry member last lastMember between
  by_cases same : entry.1 = last.1
  · have value := entries entry member
    rw [same, entries last lastMember] at value
    rw [same, Option.some.inj value]
  · exact Array.setIfInBounds_comm _ _ same

theorem record_record_alike (different : index ≠ other)
    (same : later[other]? = earlier[other]?) (otherSame : laterOther[index]? = earlier[index]?) :
    ((journal.record earlier index).record later other).Alike
      ((journal.record earlier other).record laterOther index) where
  size := by simp only [size_record]
  saved := by
    rw [saved_record_record different same, saved_record_record different.symm otherSame]
    exact List.perm_append_comm.append_right _
  restored := by
    intro current
    have entries : ∀ entry ∈ journal.fresh earlier other ++ journal.fresh earlier index,
        earlier[entry.1]? = some entry.2 := by
      intro entry member
      rcases List.mem_append.mp member with second | first
      · exact (mem_fresh second).2
      · exact (mem_fresh first).2
    unfold restore
    rw [saved_record_record different same, saved_record_record different.symm otherSame,
      List.foldl_append, List.foldl_append (l := _ ++ _)]
    simp only [size_record]
    exact congrArg (journal.saved.foldl _) (foldl_set_perm List.perm_append_comm entries _)

end Journal

structure UndoLog.Alike (first second : UndoLog) : Prop where
  nodes : first.nodes = second.nodes
  pins : first.pins.Alike second.pins
  hierarchy : first.hierarchy = second.hierarchy

namespace Graph

/-- The same graph.  The log of an open checkpoint stands for a map from the places that have been
touched to what they held, so the order of its entries does not count. -/
structure Alike (first second : Graph) : Prop where
  settled : first.commit = second.commit
  logged : Option.Rel UndoLog.Alike first.undo second.undo

theorem Alike.refl (graph : Graph) : graph.Alike graph where
  settled := rfl
  logged := by
    cases graph.undo with
    | none => exact .none
    | some log => exact .some ⟨rfl, ⟨rfl, .refl _, fun _ => rfl⟩, rfl⟩

/-- A rollback does not tell them apart. -/
theorem Alike.rollback_eq {first second : Graph} (alike : first.Alike second) :
    first.rollback = second.rollback := by
  obtain ⟨name, parentClass, nodes, pins, hierarchy, undo⟩ := first
  obtain ⟨otherName, otherClass, otherNodes, otherPins, otherHierarchy, otherUndo⟩ := second
  obtain ⟨settled, logged⟩ := alike
  cases settled
  cases logged with
  | none => rfl
  | some logs =>
      simp only [rollback, logs.nodes, logs.hierarchy, logs.pins.restored]

variable {graph : Graph} {a b : PinId}

/-- Two pins may be changed in either order. -/
theorem changePin_comm (graph : Graph) (different : a ≠ b) (first second : Pin → Pin) :
    ((graph.changePin a first).changePin b second).Alike
      ((graph.changePin b second).changePin a first) where
  settled := by
    have pins : (graph.pins.modify a.index (·.map first)).modify b.index (·.map second) =
        (graph.pins.modify b.index (·.map second)).modify a.index (·.map first) := by
      apply Array.ext_getElem?
      intro index
      simp only [Array.getElem?_modify]
      by_cases atFirst : a.index = index
      · have notSecond : b.index ≠ index := fun atSecond =>
          different (congrArg PinId.mk (atFirst.trans atSecond.symm))
        simp only [atFirst, notSecond, if_true, if_false]
      · simp only [atFirst, if_false]
    exact congrArg (fun pins => { graph.commit with pins }) pins
  logged := by
    have places : a.index ≠ b.index := fun same => different (congrArg PinId.mk same)
    have untouched {place other : Nat} (apart : place ≠ other) (change : Pin → Pin) :
        (graph.pins.modify place (·.map change))[other]? = graph.pins[other]? := by
      rw [Array.getElem?_modify, if_neg apart]
    change Option.Rel _ ((graph.undo.map _).map _) ((graph.undo.map _).map _)
    cases graph.undo with
    | none => exact .none
    | some log =>
        exact .some ⟨rfl, Journal.record_record_alike places (untouched places first)
          (untouched places.symm second), rfl⟩

theorem join_comm (different : a ≠ b) : (graph.join a b).Alike (graph.join b a) :=
  graph.changePin_comm different (·.link b) (·.link a)

theorem Linkable.symm (linkable : graph.Linkable a b) : graph.Linkable b a :=
  Or.symm linkable

end Graph

/-- Complaints that differ in no more than the order in which two pins were named. -/
inductive Error.Mirrors : Error → Error → Prop
  | pinNotFound (a b : PinId) : Mirrors (.pinNotFound a) (.pinNotFound b)
  | invalidLink (a b : PinId) (fault : LinkFault) :
      Mirrors (.invalidLink a b fault) (.invalidLink b a fault)
  | incompatibleTypes (output input : PinSummary) :
      Mirrors (.incompatibleTypes output input) (.incompatibleTypes output input)

namespace Graph

variable {graph : Graph} {a b : PinId}

theorem checkJoin_of_pin? {first second : Pin} (live : graph.pin? a = some first)
    (farLive : graph.pin? b = some second) : graph.checkJoin a b =
      if first.direction = second.direction then
        .error (.invalidLink a b (.sameDirection first.direction))
      else if first.owner = second.owner then
        .error (.invalidLink a b (.sameNode first.owner))
      else
        match first.direction with
        | .output => graph.checkTypes first second
        | .input => graph.checkTypes second first := by
  unfold checkJoin
  rw [pin_eq_ok_iff.mpr live, pin_eq_ok_iff.mpr farLive]
  rfl

theorem checkJoin_of_missing (missing : graph.pin? a = none ∨ graph.pin? b = none) :
    ∃ id, graph.checkJoin a b = .error (.pinNotFound id) := by
  unfold checkJoin
  cases live : graph.pin? a with
  | none => exact ⟨a, by rw [Graph.pin, live]; rfl⟩
  | some first =>
      have farMissing := missing.resolve_left (by simp [live])
      exact ⟨b, by rw [Graph.pin, live, Graph.pin, farMissing]; rfl⟩

theorem checkTypes_eq_error {output input : Pin} {error : Error}
    (refused : graph.checkTypes output input = .error error) :
    error = .incompatibleTypes (graph.summary output) (graph.summary input) := by
  unfold checkTypes at refused
  split at refused
  · cases refused
  · exact (Except.error.inj refused).symm

/-- Whichever pin is named first, the same is wrong with a link. -/
theorem checkJoin_mirrors {error mirrored : Error} (refused : graph.checkJoin a b = .error error)
    (refusedBack : graph.checkJoin b a = .error mirrored) : error.Mirrors mirrored := by
  by_cases missing : graph.pin? a = none ∨ graph.pin? b = none
  · obtain ⟨id, absent⟩ := checkJoin_of_missing missing
    obtain ⟨other, absentBack⟩ := checkJoin_of_missing missing.symm
    cases absent.symm.trans refused
    cases absentBack.symm.trans refusedBack
    exact .pinNotFound id other
  obtain ⟨there, farThere⟩ := not_or.mp missing
  obtain ⟨first, live⟩ := Option.ne_none_iff_exists'.mp there
  obtain ⟨second, farLive⟩ := Option.ne_none_iff_exists'.mp farThere
  rw [checkJoin_of_pin? live farLive] at refused
  rw [checkJoin_of_pin? farLive live] at refusedBack
  by_cases parallel : first.direction = second.direction
  · rw [if_pos parallel] at refused
    rw [if_pos parallel.symm, ← parallel] at refusedBack
    cases refused
    cases refusedBack
    exact .invalidLink a b _
  rw [if_neg parallel] at refused
  rw [if_neg (Ne.symm parallel)] at refusedBack
  by_cases together : first.owner = second.owner
  · rw [if_pos together] at refused
    rw [if_pos together.symm, ← together] at refusedBack
    cases refused
    cases refusedBack
    exact .invalidLink a b _
  rw [if_neg together] at refused
  rw [if_neg (Ne.symm together)] at refusedBack
  rw [PinDirection.eq_opposite_of_ne (Ne.symm parallel)] at refusedBack
  cases direction : first.direction with
  | output =>
      rw [direction] at refused refusedBack
      rw [checkTypes_eq_error refused, checkTypes_eq_error refusedBack]
      exact .incompatibleTypes _ _
  | input =>
      rw [direction] at refused refusedBack
      rw [checkTypes_eq_error refused, checkTypes_eq_error refusedBack]
      exact .incompatibleTypes _ _

end Graph

namespace Edit

open RigLowering.Graph

variable {graph : Graph} {a b : PinId}

theorem link_of_refused {error : Error} (refused : graph.checkJoin a b = .error error) :
    link a b graph = (.error error, graph) := by
  unfold link
  rw [bind_apply, query_apply, refused]

theorem link_of_linkable (linkable : graph.Linkable a b) :
    link a b graph = (.ok (), if b ∈ graph.links a then graph else graph.join a b) := by
  rcases link_cases a b graph with ⟨error, failed⟩ | ⟨_, ⟨member, same⟩ | ⟨fresh, joined⟩⟩
  · obtain ⟨_, after, linked⟩ := succeeds_link_iff.mpr linkable
    exact nomatch linked.symm.trans failed
  · rw [if_pos member]
    exact same
  · rw [if_neg fresh]
    exact joined

/-- A refusal changes nothing, and is one in either order. -/
theorem link_of_not_linkable (apart : ¬ graph.Linkable a b) :
    ∃ error mirrored, link a b graph = (.error error, graph) ∧
      link b a graph = (.error mirrored, graph) ∧ error.Mirrors mirrored := by
  cases refused : graph.checkJoin a b with
  | ok _ => exact (apart (checkJoin_eq_ok_iff.mp refused)).elim
  | error error =>
      cases refusedBack : graph.checkJoin b a with
      | ok _ => exact (apart (checkJoin_eq_ok_iff.mp refusedBack).symm).elim
      | error mirrored =>
          exact ⟨error, mirrored, link_of_refused refused, link_of_refused refusedBack,
            checkJoin_mirrors refused refusedBack⟩

/-- Once two pins are linked, linking them does nothing. -/
theorem link_of_mem (sound : graph.Sound) (linkable : graph.Linkable a b)
    (member : b ∈ graph.links a) :
    link a b graph = (.ok (), graph) ∧ link b a graph = (.ok (), graph) := by
  rw [link_of_linkable linkable, link_of_linkable linkable.symm, if_pos member,
    if_pos (sound.mem_links_comm.mp member)]
  exact ⟨rfl, rfl⟩

/-- What has been linked anew is listed once at both ends. -/
theorem count_links_join (sound : graph.Sound) (linkable : graph.Linkable a b)
    (fresh : b ∉ graph.links a) :
    ((graph.join a b).links a).count b = max 1 ((graph.links a).count b) ∧
      ((graph.join a b).links b).count a = max 1 ((graph.links b).count a) := by
  have different := linkable.joinable.ne
  have back : a ∉ graph.links b := mt sound.mem_links_comm.mpr fresh
  rw [links_join linkable.joinable, links_join linkable.joinable, if_pos rfl,
    if_neg different.symm, if_pos rfl, List.count_append, List.count_append,
    List.count_eq_zero.mpr fresh, List.count_eq_zero.mpr back]
  simp

end Edit

/-- Linking two pins does the same whichever of them is named first, and if it fails it does nothing
and complains of the same.  It succeeds just where the pins can be linked.  Then each lists the
other, as often as before or else once, and linking them again in either order does nothing. -/
theorem Graph.link_in_either_order {graph : Graph} (audited : graph.audit = .ok ()) (a b : PinId) :
    match (Edit.link a b).run graph with
    | (.ok (), after) =>
        graph.Linkable a b ∧
        (∃ mirrored, (Edit.link b a).run graph = (.ok (), mirrored) ∧ after.Alike mirrored) ∧
        (after.links a).count b = max 1 ((graph.links a).count b) ∧
        (after.links b).count a = max 1 ((graph.links b).count a) ∧
        (Edit.link a b).run after = (.ok (), after) ∧ (Edit.link b a).run after = (.ok (), after)
    | (.error error, after) =>
        ¬ graph.Linkable a b ∧ after = graph ∧
        ∃ mirrored, (Edit.link b a).run graph = (.error mirrored, graph) ∧
          error.Mirrors mirrored := by
  have sound := audit_eq_ok_iff.mp audited
  by_cases linkable : graph.Linkable a b
  · by_cases member : b ∈ graph.links a
    · obtain ⟨linked, mirrored⟩ := Edit.link_of_mem sound linkable member
      rw [show (Edit.link a b).run graph = _ from linked]
      refine ⟨linkable, ⟨graph, mirrored, .refl graph⟩, ?_, ?_, linked, mirrored⟩
      · exact (Nat.max_eq_right (List.count_pos_iff.mpr member)).symm
      · exact (Nat.max_eq_right (List.count_pos_iff.mpr (sound.mem_links_comm.mp member))).symm
    · have joinable := linkable.joinable
      have linked := Edit.link_of_linkable linkable
      have mirrored := Edit.link_of_linkable linkable.symm
      rw [if_neg member] at linked
      rw [if_neg (mt sound.mem_links_comm.mpr member)] at mirrored
      rw [show (Edit.link a b).run graph = _ from linked]
      have stillLinkable : (graph.join a b).Linkable a b :=
        ((graph.join_sameFrame a b).linkable_iff rfl).mpr linkable
      have listed : b ∈ (graph.join a b).links a :=
        (mem_links_join joinable).mpr (.inr (.inl ⟨rfl, rfl⟩))
      obtain ⟨count, countBack⟩ := Edit.count_links_join sound linkable member
      obtain ⟨again, mirroredAgain⟩ := Edit.link_of_mem (sound.join joinable) stillLinkable listed
      exact ⟨linkable, ⟨_, mirrored, join_comm joinable.ne⟩, count, countBack, again,
        mirroredAgain⟩
  · obtain ⟨error, mirrored, refused, refusedBack, mirrors⟩ := Edit.link_of_not_linkable linkable
    rw [show (Edit.link a b).run graph = _ from refused]
    exact ⟨linkable, rfl, mirrored, refusedBack, mirrors⟩

/-! A dial that lists its link to the height twice, while the height lists it once. -/

namespace DoubledDial

open RigLowering.Graph

def graph : Graph := Graph.checkpoint {
  name := "DoubledDial"
  parentClass := none
  nodes := #[
    ⟨⟨0⟩, .primitive "dial", [⟨0⟩], none⟩,
    ⟨⟨1⟩, .primitive "stage", [⟨1⟩, ⟨2⟩, ⟨3⟩], none⟩]
  pins := #[
    some ⟨⟨0⟩, ⟨0⟩, "value", .output, .float, none, none, [⟨1⟩, ⟨1⟩]⟩,
    some ⟨⟨1⟩, ⟨1⟩, "height", .input, .float, none, none, [⟨0⟩]⟩,
    some ⟨⟨2⟩, ⟨1⟩, "stride", .input, .float, none, none, []⟩,
    some ⟨⟨3⟩, ⟨1⟩, "label", .input, .string, none, none, []⟩]
  hierarchy := .empty
  undo := none }

theorem audited : graph.audit = .ok () := rfl

/-- The stride comes to be linked once, the height stays linked as it is, and the label is refused,
whichever end is named first. -/
theorem links_stride_once : graph.audit = .ok () ∧
    (∃ after mirrored, (Edit.link ⟨0⟩ ⟨2⟩).run graph = (.ok (), after) ∧
      (Edit.link ⟨2⟩ ⟨0⟩).run graph = (.ok (), mirrored) ∧ after.Alike mirrored ∧
        (after.links ⟨0⟩).count ⟨2⟩ = 1 ∧ (after.links ⟨2⟩).count ⟨0⟩ = 1) ∧
    (∃ after, (Edit.link ⟨0⟩ ⟨1⟩).run graph = (.ok (), after) ∧
      (after.links ⟨0⟩).count ⟨1⟩ = 2 ∧ (after.links ⟨1⟩).count ⟨0⟩ = 1) ∧
    ∃ error mirrored, (Edit.link ⟨0⟩ ⟨3⟩).run graph = (.error error, graph) ∧
      (Edit.link ⟨3⟩ ⟨0⟩).run graph = (.error mirrored, graph) ∧ error.Mirrors mirrored := by
  obtain ⟨_, ⟨mirrored, ran, alike⟩, once, onceBack, _⟩ :=
    link_in_either_order audited ⟨0⟩ ⟨2⟩
  obtain ⟨_, _, twice, onceMore, _⟩ := link_in_either_order audited ⟨0⟩ ⟨1⟩
  obtain ⟨_, _, refused, refusal, mirrors⟩ := link_in_either_order audited ⟨0⟩ ⟨3⟩
  exact ⟨audited, ⟨_, mirrored, rfl, ran, alike, once, onceBack⟩, ⟨_, rfl, twice, onceMore⟩,
    ⟨_, refused, rfl, refusal, mirrors⟩⟩

end DoubledDial

end RigLowering
