import Mathlib.Algebra.BigOperators.Group.List.Basic
import Mathlib.Algebra.Group.Even
import Mathlib.Data.Set.Card
import Mathlib.Data.Sym.Sym2
import RigLowering.Proofs.Footprint
import RigLowering.Proofs.LinkCounts

namespace RigLowering

namespace Graph

variable {graph before after : Graph} {node : NodeId} {a b : PinId} {inside : PinId → Bool}

def linkedPairs (graph : Graph) : Set (Sym2 PinId) :=
  {pair | ∃ id far, far ∈ graph.links id ∧ pair = s(id, far)}

/-- The links that end at one of the pins. -/
def pairsAt (graph : Graph) (inside : PinId → Bool) : Set (Sym2 PinId) :=
  {pair | ∃ id far, far ∈ graph.links id ∧ inside id ∧ pair = s(id, far)}

/-- No link joins two of the pins. -/
def Unjoined (graph : Graph) (inside : PinId → Bool) : Prop :=
  ∀ id far, far ∈ graph.links id → inside id → ¬ inside far

theorem pairsAt_subset : graph.pairsAt inside ⊆ graph.linkedPairs := by
  rintro pair ⟨id, far, linked, _, rfl⟩
  exact ⟨id, far, linked, rfl⟩

theorem Sound.mem_linkedPairs_iff (sound : graph.Sound) :
    s(a, b) ∈ graph.linkedPairs ↔ b ∈ graph.links a := by
  constructor
  · rintro ⟨id, far, linked, same⟩
    rcases Sym2.eq_iff.mp same with ⟨rfl, rfl⟩ | ⟨rfl, rfl⟩
    · exact linked
    · exact sound.mem_links_comm.mp linked
  · exact fun linked => ⟨a, b, linked, rfl⟩

/-- A link that joins no two of the pins ends at one of them once, so it is counted once. -/
theorem Regular.encard_pairsAt (regular : graph.Regular) (unjoined : graph.Unjoined inside) :
    (graph.pairsAt inside).encard = graph.linkEnds.countP (inside ·.1) := by
  have mem_iff {ends : PinId × PinId} : ends ∈ graph.linkEnds.filter (inside ·.1) ↔
      ends.2 ∈ graph.links ends.1 ∧ inside ends.1 := by
    rw [List.mem_filter, ← regular.mem_linkEnds_iff]
  have nodup : ((graph.linkEnds.filter (inside ·.1)).map fun ends => s(ends.1, ends.2)).Nodup := by
    refine List.Nodup.map_on ?_ (regular.nodup_linkEnds.filter _)
    rintro ⟨id, far⟩ member ⟨other, otherFar⟩ otherMember same
    rcases Sym2.eq_iff.mp same with ⟨rfl, rfl⟩ | ⟨rfl, rfl⟩
    · rfl
    · obtain ⟨linked, here⟩ := mem_iff.mp member
      exact (unjoined _ _ linked here (mem_iff.mp otherMember).2).elim
  have pairs : graph.pairsAt inside =
      ((graph.linkEnds.filter (inside ·.1)).map fun ends => s(ends.1, ends.2)).toFinset := by
    ext pair
    rw [Finset.mem_coe, List.mem_toFinset, List.mem_map]
    constructor
    · rintro ⟨id, far, linked, here, rfl⟩
      exact ⟨(id, far), mem_iff.mpr ⟨linked, here⟩, rfl⟩
    · rintro ⟨⟨id, far⟩, member, rfl⟩
      obtain ⟨linked, here⟩ := mem_iff.mp member
      exact ⟨id, far, linked, here, rfl⟩
  rw [pairs, Set.encard_coe_eq_coe_finsetCard, List.toFinset_card_of_nodup nodup, List.length_map,
    List.countP_eq_length_filter]

def isOutput (graph : Graph) (id : PinId) : Bool :=
  (graph.pin? id).any (·.direction = .output)

theorem Sound.isOutput_far (sound : graph.Sound) {id far : PinId} (linked : far ∈ graph.links id) :
    graph.isOutput far = !graph.isOutput id := by
  obtain ⟨face, farFace, found, farFound, direction, _⟩ := sound.joinable linked
  obtain ⟨pin, live, rfl, _⟩ := exists_pin?_of_face? found
  obtain ⟨other, farLive, rfl, _⟩ := exists_pin?_of_face? farFound
  have opposed : other.direction = pin.direction.opposite :=
    PinDirection.eq_opposite_of_ne direction
  rw [isOutput, isOutput, live, farLive, Option.any_some, Option.any_some, opposed]
  cases pin.direction <;> rfl

theorem Regular.length_linkEnds (regular : graph.Regular) :
    graph.linkEnds.length = 2 * graph.linkEnds.countP (graph.isOutput ·.1) := by
  have inputs : graph.linkEnds.countP (fun ends => ¬ graph.isOutput ends.1) =
      graph.linkEnds.countP (graph.isOutput ·.2) := by
    refine List.countP_congr ?_
    rintro ⟨id, far⟩ member
    have linked := regular.mem_linkEnds_iff.mp member
    simp [regular.isOutput_far linked]
  rw [List.length_eq_countP_add_countP (graph.isOutput ·.1), inputs, regular.countP_linkEnds_far,
    Nat.two_mul]

theorem Regular.encard_linkedPairs (regular : graph.Regular) :
    graph.linkedPairs.encard = graph.linkCount := by
  have unjoined : graph.Unjoined graph.isOutput := by
    intro id far linked output
    simp [regular.isOutput_far linked, output]
  have pairs : graph.linkedPairs = graph.pairsAt graph.isOutput := by
    refine Set.Subset.antisymm ?_ pairsAt_subset
    rintro pair ⟨id, far, linked, rfl⟩
    cases output : graph.isOutput id with
    | true => exact ⟨id, far, linked, output, rfl⟩
    | false =>
        refine ⟨far, id, regular.mem_links_comm.mp linked, ?_, Sym2.eq_swap⟩
        rw [regular.isOutput_far linked, output, Bool.not_false]
  rw [pairs, regular.encard_pairsAt unjoined, linkCount_eq, regular.length_linkEnds,
    Nat.mul_div_cancel_left _ Nat.two_pos]

private theorem total_ite_eq_countP {α : Type} (test : α → Bool) (keys : List α) :
    total (keys.map fun key => if test key then 1 else 0) = keys.countP test := by
  induction keys with
  | nil => rfl
  | cons key rest ih =>
      rw [List.countP_cons, ← ih, Nat.add_comm]
      rfl

/-- Where just one key goes with each value, counting the values of each key counts them all. -/
theorem total_countP {α β : Type} {test : α → β → Bool} {keys : List α} {values : List β}
    (once : ∀ value ∈ values, keys.countP (test · value) = 1) :
    total (keys.map fun key => values.countP (test key)) = values.length := by
  induction values with
  | nil => exact List.sum_map_zero
  | cons value rest ih =>
      obtain ⟨here, others⟩ := List.forall_mem_cons.mp once
      simp only [List.countP_cons]
      change (keys.map fun key => rest.countP (test key) + if test key value then 1 else 0).sum = _
      rw [List.sum_map_add]
      change total _ + total _ = _
      rw [ih others, total_ite_eq_countP, here, List.length_cons]

theorem Sound.nodeIds_nodup (sound : graph.Sound) : graph.nodeIds.Nodup := by
  have places : graph.nodeIds = (List.range graph.nodes.size).map NodeId.mk := by
    apply List.ext_getElem
    · simp [nodeIds]
    · intro index inBounds _
      have bound : index < graph.nodes.size := by simpa [nodeIds] using inBounds
      have found : graph.node? ⟨index⟩ = some graph.nodes[index] := Array.getElem?_eq_getElem bound
      simpa [nodeIds] using sound.nodeId found
  rw [places]
  exact List.nodup_range.map fun _ _ same => congrArg NodeId.index same

theorem Sound.countP_ownsPin (sound : graph.Sound) (linked : b ∈ graph.links a) :
    graph.nodeIds.countP (graph.ownsPin · a) = 1 := by
  obtain ⟨face, found⟩ := face?_isSome_of_mem_links linked
  obtain ⟨pin, live, _⟩ := exists_pin?_of_face? found
  obtain ⟨owner, ownerFound, _⟩ := sound.owned (face?_of_pin? live)
  have listed : pin.owner ∈ graph.nodeIds :=
    List.mem_map.mpr ⟨owner, mem_nodes_iff.mpr ⟨_, ownerFound⟩, sound.nodeId ownerFound⟩
  rw [← List.count_eq_one_of_mem sound.nodeIds_nodup listed, List.count]
  refine List.countP_congr fun node _ => ?_
  simp only [ownsPin, live, Option.any_some, decide_eq_true_eq, beq_iff_eq]
  exact eq_comm

theorem Regular.nodeLinkCount_eq_countP (regular : graph.Regular) {data : Node}
    (found : graph.node? node = some data) :
    graph.nodeLinkCount node = .ok (graph.linkEnds.countP (graph.ownsPin node ·.1)) := by
  have read := regular.pinsOf_eq found
  rw [nodeLinkCount_eq read, regular.countP_owned_linkEnds read]

private theorem mapM_eq_ok {α β : Type} {answer : α → Except Error β} {value : α → β}
    {asked : List α} (answered : ∀ entry ∈ asked, answer entry = .ok (value entry)) :
    asked.mapM answer = .ok (asked.map value) := by
  induction asked with
  | nil => rfl
  | cons entry rest ih =>
      obtain ⟨here, others⟩ := List.forall_mem_cons.mp answered
      rw [List.mapM_cons, here, ih others]
      rfl

/-- Every end of a link is counted at one node, so every link at two. -/
theorem Regular.nodeLinkCounts (regular : graph.Regular) :
    ∃ counts, graph.nodeIds.mapM graph.nodeLinkCount = .ok counts ∧
      total counts = graph.linkEnds.length := by
  have answered : ∀ node ∈ graph.nodeIds, graph.nodeLinkCount node =
      .ok (graph.linkEnds.countP (graph.ownsPin node ·.1)) := by
    intro node member
    obtain ⟨data, listed, rfl⟩ := List.mem_map.mp member
    obtain ⟨id, found⟩ := mem_nodes_iff.mp listed
    rw [regular.nodeId found]
    exact regular.nodeLinkCount_eq_countP found
  exact ⟨_, mapM_eq_ok answered, total_countP fun _ member =>
    regular.countP_ownsPin (regular.mem_linkEnds_iff.mp member)⟩

theorem Regular.linkCount_join (regular : graph.Regular) (joinable : graph.Joinable a b)
    (fresh : b ∉ graph.links a) : (graph.join a b).linkCount = graph.linkCount + 1 := by
  have pairs : (graph.join a b).linkedPairs = insert s(a, b) graph.linkedPairs := by
    ext pair
    induction pair with
    | h id far =>
        rw [Set.mem_insert_iff, regular.mem_linkedPairs_iff,
          (regular.join joinable fresh).mem_linkedPairs_iff, mem_links_join joinable, Sym2.eq_iff]
        exact or_comm
  have unlinked : s(a, b) ∉ graph.linkedPairs := mt regular.mem_linkedPairs_iff.mp fresh
  have counted := Set.encard_insert_of_notMem unlinked
  rw [← pairs, regular.encard_linkedPairs, (regular.join joinable fresh).encard_linkedPairs]
    at counted
  exact_mod_cast counted

/-- Where the links of some pins are gone, the count is lower by just as many. -/
theorem Regular.linkCount_of_severed (regular : before.Regular) (afterRegular : after.Regular)
    (unjoined : before.Unjoined inside)
    (links : ∀ id far, far ∈ after.links id ↔
      far ∈ before.links id ∧ ¬ inside id ∧ ¬ inside far) :
    after.linkCount + before.linkEnds.countP (inside ·.1) = before.linkCount := by
  have pairs : after.linkedPairs = before.linkedPairs \ before.pairsAt inside := by
    ext pair
    induction pair with
    | h id far =>
        rw [Set.mem_sdiff, regular.mem_linkedPairs_iff, afterRegular.mem_linkedPairs_iff, links]
        refine and_congr_right fun linked => ?_
        constructor
        · rintro ⟨outside, farOutside⟩ ⟨other, otherFar, _, here, same⟩
          rcases Sym2.eq_iff.mp same with ⟨rfl, rfl⟩ | ⟨rfl, rfl⟩
          · exact outside here
          · exact farOutside here
        · intro apart
          exact ⟨fun here => apart ⟨id, far, linked, here, rfl⟩, fun here =>
            apart ⟨far, id, regular.mem_links_comm.mp linked, here, Sym2.eq_swap⟩⟩
  have within : before.pairsAt inside ⊆ before.linkedPairs := pairsAt_subset
  have counted := Set.encard_sdiff_add_encard_of_subset within
  rw [← pairs, regular.encard_pairsAt unjoined, regular.encard_linkedPairs,
    afterRegular.encard_linkedPairs] at counted
  exact_mod_cast counted

theorem Regular.countP_linkEnds_at (regular : graph.Regular) (id : PinId) :
    graph.linkEnds.countP (·.1 = id) = (graph.links id).length := by
  have ends : (graph.linkEnds.filter (·.1 = id)).Perm ((graph.links id).map (id, ·)) := by
    refine (List.perm_ext_iff_of_nodup (regular.nodup_linkEnds.filter _)
      ((regular.linksNodup id).map fun _ _ same => congrArg Prod.snd same)).mpr ?_
    rintro ⟨other, far⟩
    rw [List.mem_filter, regular.mem_linkEnds_iff, List.mem_map]
    constructor
    · rintro ⟨linked, here⟩
      obtain rfl : other = id := of_decide_eq_true here
      exact ⟨far, linked, rfl⟩
    · rintro ⟨_, linked, same⟩
      cases same
      exact ⟨linked, decide_eq_true rfl⟩
  rw [List.countP_eq_length_filter, ends.length_eq, List.length_map]

theorem Regular.linkCount_without_pin (regular : before.Regular) (afterRegular : after.Regular)
    {id : PinId} (links : ∀ other far, far ∈ after.links other ↔
      far ∈ before.links other ∧ other ≠ id ∧ far ≠ id) :
    after.linkCount + (before.links id).length = before.linkCount := by
  have unjoined : before.Unjoined (· = id) := by
    intro other far linked here there
    exact (regular.joinable linked).ne
      ((of_decide_eq_true here).trans (of_decide_eq_true there).symm)
  rw [← regular.countP_linkEnds_at]
  exact regular.linkCount_of_severed afterRegular unjoined (by simpa using links)

end Graph

namespace Edit

open RigLowering.Graph

variable {graph : Graph}

/-- A link counts once, and only if it was not there before. -/
theorem linkCount_link (regular : graph.Regular) (a b : PinId) :
    (link a b graph).2.linkCount = graph.linkCount +
      if b ∈ (link a b graph).2.links a ∧ b ∉ graph.links a then 1 else 0 := by
  rcases link_cases a b graph with ⟨error, failed⟩ | ⟨joinable, ⟨_, same⟩ | ⟨fresh, joined⟩⟩
  · rw [failed, if_neg fun ⟨linked, fresh⟩ => fresh linked, Nat.add_zero]
  · rw [same, if_neg fun ⟨linked, fresh⟩ => fresh linked, Nat.add_zero]
  · have listed : b ∈ (graph.join a b).links a :=
      (mem_links_join joinable).mpr (.inr (.inl ⟨rfl, rfl⟩))
    rw [joined, if_pos ⟨listed, fresh⟩]
    exact regular.linkCount_join joinable fresh

theorem links_eq_nil_of_absent {id : PinId} (absent : graph.face? id = none) :
    graph.links id = [] := by
  rw [Graph.links, Option.map_eq_none_iff.mp absent]
  rfl

theorem linkCount_unlinkPin (regular : graph.Regular) (id : PinId) :
    (unlinkPin id graph).2.linkCount + (graph.links id).length = graph.linkCount := by
  have afterRegular := unlinkPin_keeps_regular id graph regular
  rcases unlinkPin_cases regular.toSound id with
    ⟨_, absent, failed⟩ | ⟨_, after, _, unlinked, _, links⟩
  · rw [failed, links_eq_nil_of_absent absent, List.length_nil, Nat.add_zero]
  · rw [unlinked] at afterRegular ⊢
    exact regular.linkCount_without_pin afterRegular fun _ _ => mem_links_of_unlinked links

theorem linkCount_removePin (regular : graph.Regular) (id : PinId) :
    (removePin id graph).2.linkCount + (graph.links id).length = graph.linkCount := by
  have afterRegular := removePin_keeps_regular id graph regular
  rcases removePin_cases regular.toSound id with ⟨_, absent, failed⟩ | ⟨after, done, removed⟩
  · rw [failed, links_eq_nil_of_absent absent, List.length_nil, Nat.add_zero]
  · rw [done] at afterRegular ⊢
    exact regular.linkCount_without_pin afterRegular fun _ _ => removed.mem_links_iff

theorem succeeds_forM_unlinkPin {ids : List PinId} (sound : graph.Sound)
    (live : ∀ id ∈ ids, ∃ face, graph.face? id = some face) :
    Succeeds (ids.forM unlinkPin) graph := by
  induction ids generalizing graph with
  | nil => exact succeeds_pure ()
  | cons id rest ih =>
      obtain ⟨⟨face, found⟩, others⟩ := List.forall_mem_cons.mp live
      have kept := unlinkPin_keeps_sound id graph sound
      rcases unlinkPin_cases sound id with ⟨_, absent, _⟩ | ⟨_, after, _, unlinked, frame, _⟩
      · exact nomatch absent.symm.trans found
      · rw [unlinked] at kept
        exact succeeds_bind_iff.mpr ⟨(), after, unlinked,
          ih kept fun other member => frame.face other ▸ others other member⟩

theorem linkCount_unlinkNode (regular : graph.Regular) (node : NodeId) :
    (unlinkNode node graph).2.linkCount + (graph.nodeLinkCount node).toOption.getD 0 =
      graph.linkCount := by
  cases found : graph.node? node with
  | none =>
      have absent : graph.node node = .error (.nodeNotFound node) := by rw [Graph.node, found]
      rw [nodeLinkCount, pinsOf, absent, unlinkNode, bind_apply, node_apply, absent]
      rfl
  | some data =>
      obtain ⟨_, after, unlinked⟩ : Succeeds (unlinkNode node) graph :=
        succeeds_bind_iff.mpr ⟨data, graph, yields_node_iff.mpr ⟨rfl, found⟩,
          succeeds_forM_unlinkPin regular.toSound fun id member =>
            (regular.listed found member).imp fun _ => And.left⟩
      have afterRegular := (Composed.unlinkNode node).keeps_regular.holds_after unlinked regular
      obtain ⟨_, links⟩ := yields_unlinkNode regular.toSound unlinked
      rw [regular.nodeLinkCount_eq_countP found, show unlinkNode node graph = _ from unlinked]
      refine regular.linkCount_of_severed afterRegular ?_ ?_
      · intro id far linked here
        rw [ownsPin_iff] at here ⊢
        exact regular.not_owns_of_mem_links linked here
      · intro id far
        rw [links, ownsPin_iff, ownsPin_iff]

end Edit

/-- Every link is listed at two pins and counted at two nodes, and counts once in all.  Making a link
that was not there raises the count by one.  Taking the links of a pin or of a node away, or the pin
itself, lowers it by the number of these links. -/
theorem Graph.WellFormed.links_counted {graph : Graph} (wellFormed : graph.WellFormed) :
    Even (total (graph.livePins.map (·.links.length))) ∧
    graph.linkedPairs.encard = graph.linkCount ∧
    (∃ counts, graph.nodeIds.mapM graph.nodeLinkCount = .ok counts ∧
      total counts = 2 * graph.linkCount) ∧
    (∀ a b, ((GraphChange.link a b).leaves graph).linkCount = graph.linkCount +
      if b ∈ ((GraphChange.link a b).leaves graph).links a ∧ b ∉ graph.links a then 1 else 0) ∧
    (∀ id, ((GraphChange.unlinkPin id).leaves graph).linkCount + (graph.links id).length =
      graph.linkCount) ∧
    (∀ node, ((GraphChange.unlinkNode node).leaves graph).linkCount +
      (graph.nodeLinkCount node).toOption.getD 0 = graph.linkCount) ∧
    ∀ id, ((GraphChange.removePin id).leaves graph).linkCount + (graph.links id).length =
      graph.linkCount := by
  have regular := wellFormed_iff_regular.mp wellFormed
  have ends := regular.length_linkEnds
  have count : graph.linkEnds.length = 2 * graph.linkCount := by
    rw [linkCount_eq, ends, Nat.mul_div_cancel_left _ Nat.two_pos]
  obtain ⟨counts, counted, sum⟩ := regular.nodeLinkCounts
  refine ⟨?_, regular.encard_linkedPairs, ⟨counts, counted, sum.trans count⟩,
    Edit.linkCount_link regular, Edit.linkCount_unlinkPin regular,
    Edit.linkCount_unlinkNode regular, Edit.linkCount_removePin regular⟩
  rw [← length_flatMap_links (fun pin far => (pin.id, far))]
  exact count ▸ even_two_mul graph.linkCount

/-! A dial that is linked to a stage and to a lamp.  The stage has lost a pin and has one to
spare. -/

namespace SharedLamp

open RigLowering.Graph

def graph : Graph where
  name := "SharedLamp"
  parentClass := none
  nodes := #[
    ⟨⟨0⟩, .primitive "dial", [⟨0⟩], none⟩,
    ⟨⟨1⟩, .primitive "stage", [⟨1⟩, ⟨3⟩], none⟩,
    ⟨⟨2⟩, .primitive "lamp", [⟨4⟩], none⟩]
  pins := #[
    some ⟨⟨0⟩, ⟨0⟩, "value", .output, .float, none, none, [⟨1⟩, ⟨4⟩]⟩,
    some ⟨⟨1⟩, ⟨1⟩, "height", .input, .float, none, none, [⟨0⟩]⟩,
    none,
    some ⟨⟨3⟩, ⟨1⟩, "stride", .input, .float, none, none, []⟩,
    some ⟨⟨4⟩, ⟨2⟩, "glow", .input, .float, none, none, [⟨0⟩]⟩]
  hierarchy := .empty
  undo := none

theorem isWellFormed : graph.WellFormed where
  audited := rfl
  pinsOnce := by decide
  linksOnce := by decide
  namesOnce := by decide

/-- Linking the stride makes a third link, and linking the height again makes none.  One link goes
with the stage or with the pin of the lamp, both go with those of the dial. -/
theorem counts_dial_twice : graph.WellFormed ∧ graph.linkedPairs.encard = 2 ∧
    (∃ counts, graph.nodeIds.mapM graph.nodeLinkCount = .ok counts ∧ total counts = 4) ∧
    ((GraphChange.link ⟨3⟩ ⟨0⟩).leaves graph).linkCount = 3 ∧
    ((GraphChange.link ⟨1⟩ ⟨0⟩).leaves graph).linkCount = 2 ∧
    ((GraphChange.unlinkPin ⟨0⟩).leaves graph).linkCount = 0 ∧
    ((GraphChange.unlinkNode ⟨1⟩).leaves graph).linkCount = 1 ∧
    ((GraphChange.removePin ⟨4⟩).leaves graph).linkCount = 1 := by
  obtain ⟨_, pairs, nodes, linking, unlinkingPin, unlinkingNode, removing⟩ :=
    isWellFormed.links_counted
  exact ⟨isWellFormed, pairs, nodes, linking ⟨3⟩ ⟨0⟩, linking ⟨1⟩ ⟨0⟩,
    Nat.add_right_cancel (unlinkingPin ⟨0⟩ : _ + 2 = 0 + 2),
    Nat.add_right_cancel (unlinkingNode ⟨1⟩ : _ + 1 = 1 + 1),
    Nat.add_right_cancel (removing ⟨4⟩ : _ + 1 = 1 + 1)⟩

end SharedLamp

end RigLowering
