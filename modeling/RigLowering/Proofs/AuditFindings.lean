import RigLowering.Proofs.WellFormed
import RigLowering.Proofs.Relinking

namespace RigLowering

namespace Graph

/-- Nodes and live pins carry the identity of their place.  A node lists live pins that belong to
it, a live pin belongs to a node that lists it, and what a live pin is linked to is a live pin of
the other direction and of another node that lists it in turn. -/
structure Intact (graph : Graph) : Prop where
  nodePlace : ∀ {id node}, graph.node? id = some node → node.id = id
  pinPlace : ∀ {id pin}, graph.pin? id = some pin → pin.id = id
  listed : ∀ {id node member}, graph.node? id = some node → member ∈ node.pins →
    ∃ pin, graph.pin? member = some pin ∧ pin.owner = id
  owned : ∀ {id pin}, graph.pin? id = some pin →
    ∃ owner, graph.node? pin.owner = some owner ∧ id ∈ owner.pins
  linked : ∀ {id pin far}, graph.pin? id = some pin → far ∈ pin.links →
    ∃ other, graph.pin? far = some other ∧ id ∈ other.links ∧
      other.direction = pin.direction.opposite ∧ other.owner ≠ pin.owner

variable {graph : Graph}

theorem Sound.intact (sound : graph.Sound) : graph.Intact where
  nodePlace := sound.nodeId
  pinPlace := fun live => sound.faceId (face?_of_pin? live)
  listed := by
    intro id node member found listed
    obtain ⟨face, memberFound, owner⟩ := sound.listed found listed
    obtain ⟨pin, live, rfl, _⟩ := exists_pin?_of_face? memberFound
    exact ⟨pin, live, owner⟩
  owned := fun live => sound.owned (face?_of_pin? live)
  linked := by
    intro id pin far live member
    rw [← links_of_pin? live] at member
    obtain ⟨face, farFound, back, direction, owner⟩ := sound.linked (face?_of_pin? live) member
    obtain ⟨other, farLive, rfl, same⟩ := exists_pin?_of_face? farFound
    exact ⟨other, farLive, same ▸ back, PinDirection.eq_opposite_of_ne direction, owner⟩

/-- The graph has the defect, at the places that the complaint names. -/
def Exhibits (graph : Graph) : GraphDefect → Prop
  | .misplacedNode node index =>
      ∃ data, graph.nodes[index]? = some data ∧ data.id = node ∧ node.index ≠ index
  | .misplacedPin pin index =>
      ∃ data, graph.pins[index]? = some (some data) ∧ data.id = pin ∧ pin.index ≠ index
  | .listedPinMissing node pin =>
      ∃ data, graph.node? node = some data ∧ pin ∈ data.pins ∧ graph.pin? pin = none
  | .listedPinForeign node pin owner =>
      ∃ data listed, graph.node? node = some data ∧ pin ∈ data.pins ∧
        graph.pin? pin = some listed ∧ listed.owner = owner ∧ owner ≠ node
  | .ownerMissing pin owner =>
      ∃ data, graph.pin? pin = some data ∧ data.owner = owner ∧ graph.node? owner = none
  | .unlisted pin owner =>
      ∃ data node, graph.pin? pin = some data ∧ data.owner = owner ∧
        graph.node? owner = some node ∧ pin ∉ node.pins
  | .linkDangling pin far =>
      ∃ data, graph.pin? pin = some data ∧ far ∈ data.links ∧ graph.pin? far = none
  | .linkOneSided pin far =>
      ∃ data other, graph.pin? pin = some data ∧ far ∈ data.links ∧
        graph.pin? far = some other ∧ pin ∉ other.links
  | .linkIllJoined pin far =>
      ∃ data other, graph.pin? pin = some data ∧ far ∈ data.links ∧
        graph.pin? far = some other ∧ pin ∈ other.links ∧
          (other.direction = data.direction ∨ other.owner = data.owner)

theorem Exhibits.not_intact {defect : GraphDefect} (exhibits : graph.Exhibits defect) :
    ¬ graph.Intact := by
  intro intact
  cases defect with
  | misplacedNode node index =>
      obtain ⟨data, found, rfl, misplaced⟩ := exhibits
      have placed : graph.node? ⟨index⟩ = some data := found
      exact misplaced (congrArg NodeId.index (intact.nodePlace placed))
  | misplacedPin pin index =>
      obtain ⟨data, found, rfl, misplaced⟩ := exhibits
      have live : graph.pin? ⟨index⟩ = some data := Option.join_eq_some_iff.mpr found
      exact misplaced (congrArg PinId.index (intact.pinPlace live))
  | listedPinMissing node pin =>
      obtain ⟨data, found, member, missing⟩ := exhibits
      obtain ⟨listed, live, _⟩ := intact.listed found member
      exact nomatch missing.symm.trans live
  | listedPinForeign node pin owner =>
      obtain ⟨data, listed, found, member, live, rfl, foreign⟩ := exhibits
      obtain ⟨other, otherLive, owner⟩ := intact.listed found member
      cases live.symm.trans otherLive
      exact foreign owner
  | ownerMissing pin owner =>
      obtain ⟨data, live, rfl, missing⟩ := exhibits
      obtain ⟨node, found, _⟩ := intact.owned live
      exact nomatch missing.symm.trans found
  | unlisted pin owner =>
      obtain ⟨data, node, live, rfl, found, unlisted⟩ := exhibits
      obtain ⟨other, otherFound, listed⟩ := intact.owned live
      cases found.symm.trans otherFound
      exact unlisted listed
  | linkDangling pin far =>
      obtain ⟨data, live, member, missing⟩ := exhibits
      obtain ⟨other, farLive, _⟩ := intact.linked live member
      exact nomatch missing.symm.trans farLive
  | linkOneSided pin far =>
      obtain ⟨data, other, live, member, farLive, oneSided⟩ := exhibits
      obtain ⟨same, sameLive, back, _⟩ := intact.linked live member
      cases farLive.symm.trans sameLive
      exact oneSided back
  | linkIllJoined pin far =>
      obtain ⟨data, other, live, member, farLive, _, illJoined⟩ := exhibits
      obtain ⟨same, sameLive, _, direction, owner⟩ := intact.linked live member
      cases farLive.symm.trans sameLive
      rcases illJoined with parallel | together
      · rw [direction] at parallel
        cases toward : data.direction with
        | input => rw [toward] at parallel; cases parallel
        | output => rw [toward] at parallel; cases parallel
      · exact owner together

/-! A check is truthful when all that it complains of is there. -/

def Truthful (graph : Graph) (check : Except Error Unit) : Prop :=
  ∀ error, check = .error error → ∃ defect, error = .corruptGraph defect ∧ graph.Exhibits defect

theorem truthful_ok : graph.Truthful (.ok ()) :=
  fun _ failed => nomatch failed

theorem truthful_corrupt {defect : GraphDefect} (exhibits : graph.Exhibits defect) :
    graph.Truthful (.error (.corruptGraph defect)) := by
  intro error failed
  cases failed
  exact ⟨defect, rfl, exhibits⟩

theorem truthful_corruptUnless {holds : Bool} {defect : GraphDefect}
    (exhibits : holds = false → graph.Exhibits defect) :
    graph.Truthful (corruptUnless holds defect) := by
  cases holds with
  | true => exact truthful_ok
  | false => exact truthful_corrupt (exhibits rfl)

theorem Truthful.andThen {first next : Except Error Unit} (firstTruthful : graph.Truthful first)
    (nextTruthful : first = .ok () → graph.Truthful next) :
    graph.Truthful (first >>= fun _ => next) := by
  intro error failed
  rcases bind_eq_error_iff.mp failed with early | ⟨_, passed, late⟩
  · exact firstTruthful error early
  · exact nextTruthful passed error late

theorem Truthful.forM {α : Type} {check : α → Except Error Unit} {values : List α}
    (truthful : ∀ value ∈ values, graph.Truthful (check value)) :
    graph.Truthful (values.forM check) := by
  induction values with
  | nil => exact truthful_ok
  | cons value rest ih =>
      obtain ⟨first, others⟩ := List.forall_mem_cons.mp truthful
      exact first.andThen fun _ => ih others

theorem truthful_checkNodePlace {node : Node} {index : Nat}
    (found : graph.nodes[index]? = some node) : graph.Truthful (checkNodePlace node index) :=
  truthful_corruptUnless fun misplaced => ⟨node, found, rfl, of_decide_eq_false misplaced⟩

theorem truthful_checkPinPlace {place : Option Pin} {index : Nat}
    (found : graph.pins[index]? = some place) : graph.Truthful (checkPinPlace place index) := by
  cases place with
  | none => exact truthful_ok
  | some pin =>
      exact truthful_corruptUnless fun misplaced => ⟨pin, found, rfl, of_decide_eq_false misplaced⟩

theorem truthful_checkListedPin {node : Node} {pin : PinId}
    (found : graph.node? node.id = some node) (member : pin ∈ node.pins) :
    graph.Truthful (graph.checkListedPin node pin) := by
  unfold checkListedPin
  cases live : graph.pin? pin with
  | none => exact truthful_corrupt ⟨node, found, member, live⟩
  | some listed =>
      exact truthful_corruptUnless fun foreign =>
        ⟨node, listed, found, member, live, rfl, of_decide_eq_false foreign⟩

theorem truthful_checkOwner {pin : Pin} (live : graph.pin? pin.id = some pin) :
    graph.Truthful (graph.checkOwner pin) := by
  unfold checkOwner
  cases found : graph.node? pin.owner with
  | none => exact truthful_corrupt ⟨pin, live, rfl, found⟩
  | some owner =>
      exact truthful_corruptUnless fun unlisted =>
        ⟨pin, owner, live, rfl, found, by simpa using unlisted⟩

theorem truthful_checkLink {pin : Pin} {far : PinId} (live : graph.pin? pin.id = some pin)
    (member : far ∈ pin.links) : graph.Truthful (graph.checkLink pin far) := by
  unfold checkLink
  cases farLive : graph.pin? far with
  | none => exact truthful_corrupt ⟨pin, live, member, farLive⟩
  | some other =>
      refine (truthful_corruptUnless fun oneSided => ?_).andThen fun back =>
        truthful_corruptUnless fun illJoined => ?_
      · exact ⟨pin, other, live, member, farLive, by simpa using oneSided⟩
      · have listed : pin.id ∈ other.links := by simpa using corruptUnless_eq_ok_iff.mp back
        refine ⟨pin, other, live, member, farLive, listed, ?_⟩
        exact (Decidable.not_and_iff_not_or_not.mp (of_decide_eq_false illJoined)).imp
          Decidable.of_not_not Decidable.of_not_not

/-- What an audit complains of is there.  The later scans may rely on the places that the first two
have checked. -/
theorem truthful_audit (graph : Graph) : graph.Truthful graph.audit := by
  unfold audit
  refine Truthful.andThen (Truthful.forM ?nodePlaces) fun nodePlaces =>
    Truthful.andThen (Truthful.forM ?pinPlaces) fun pinPlaces =>
      Truthful.andThen (Truthful.forM ?nodes) fun _ => Truthful.forM ?pins
  case nodePlaces =>
    rintro ⟨node, index⟩ member
    rw [List.mem_zipIdx_iff_getElem?, Array.getElem?_toList] at member
    exact truthful_checkNodePlace member
  case pinPlaces =>
    rintro ⟨place, index⟩ member
    rw [List.mem_zipIdx_iff_getElem?, Array.getElem?_toList] at member
    exact truthful_checkPinPlace member
  case nodes =>
    intro node member
    obtain ⟨id, found⟩ := mem_nodes_iff.mp member
    have placed : graph.node? node.id = some node := by
      rwa [checkNodePlaces_iff.mp nodePlaces found]
    exact Truthful.forM fun _ listed => truthful_checkListedPin placed listed
  case pins =>
    intro pin member
    obtain ⟨id, live⟩ := mem_livePins_iff.mp member
    have placed : graph.pin? pin.id = some pin := by
      rwa [checkPinPlaces_iff.mp pinPlaces live]
    exact (truthful_checkOwner placed).andThen fun _ =>
      Truthful.forM fun _ linked => truthful_checkLink placed linked

/-- An audit accepts the graphs whose structure is intact, and no others. -/
theorem audit_accepts_iff_intact : graph.audit = .ok () ↔ graph.Intact := by
  constructor
  · intro accepted
    exact (audit_eq_ok_iff.mp accepted).intact
  · intro intact
    cases checked : graph.audit with
    | ok _ => rfl
    | error error =>
        obtain ⟨defect, _, exhibits⟩ := graph.truthful_audit error checked
        exact (exhibits.not_intact intact).elim

end Graph

end RigLowering
