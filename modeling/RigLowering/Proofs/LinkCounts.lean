import Mathlib.Data.List.Nodup
import Mathlib.Data.Prod.Basic
import RigLowering.Proofs.PinLayout

namespace RigLowering

/-- A link of a node, told by the direction and the name of the pin that lists it. -/
structure NamedLink where
  direction : PinDirection
  name : String
  far : PinId
  deriving DecidableEq

def Pin.namedLinks (pin : Pin) : List NamedLink :=
  pin.links.map (⟨pin.direction, pin.name, ·⟩)

namespace Graph

variable {graph before after : Graph} {node : NodeId} {data : Node} {pins : List Pin}

theorem mapM_pin_of_live {ids : List PinId}
    (live : ∀ id ∈ ids, ∃ face, graph.face? id = some face) :
    ids.mapM graph.pin = .ok (ids.filterMap graph.pin?) := by
  induction ids with
  | nil => rfl
  | cons id rest ih =>
      obtain ⟨⟨face, found⟩, others⟩ := List.forall_mem_cons.mp live
      obtain ⟨pin, pinLive, _⟩ := exists_pin?_of_face? found
      rw [List.mapM_cons, pin_eq_ok_iff.mpr pinLive, ih others, List.filterMap_cons_some pinLive]
      rfl

theorem Sound.pinsOf_eq (sound : graph.Sound) (found : graph.node? node = some data) :
    graph.pinsOf node = .ok (data.pins.filterMap graph.pin?) := by
  rw [pinsOf, node_eq_ok_iff.mpr found]
  exact mapM_pin_of_live fun id member => (sound.listed found member).imp fun _ => And.left

theorem Sound.id_eq (sound : graph.Sound) {id : PinId} {pin : Pin}
    (live : graph.pin? id = some pin) : pin.id = id :=
  sound.faceId (face?_of_pin? live)

theorem Sound.eq_of_pinsOf (sound : graph.Sound) (read : graph.pinsOf node = .ok pins) :
    ∃ data, graph.node? node = some data ∧ pins = data.pins.filterMap graph.pin? := by
  obtain ⟨data, nodeRead, _⟩ := bind_eq_ok_iff.mp read
  have found := node_eq_ok_iff.mp nodeRead
  rw [sound.pinsOf_eq found] at read
  exact ⟨data, found, (Except.ok.inj read).symm⟩

/-- They are just the pins that the node owns. -/
theorem Sound.mem_pinsOf_iff (sound : graph.Sound) (read : graph.pinsOf node = .ok pins)
    {pin : Pin} : pin ∈ pins ↔ graph.pin? pin.id = some pin ∧ pin.owner = node := by
  obtain ⟨data, found, rfl⟩ := sound.eq_of_pinsOf read
  rw [List.mem_filterMap]
  constructor
  · rintro ⟨id, listed, live⟩
    rw [sound.id_eq live]
    exact ⟨live, (owns_iff_of_pin? live).mp (sound.listed found listed)⟩
  · rintro ⟨live, owner⟩
    exact ⟨pin.id, (sound.mem_pins_iff found).mpr ((owns_iff_of_pin? live).mpr owner), live⟩

section Tagged

variable {α : Type} {tag : Pin → PinId → α}

theorem length_flatMap_links (tag : Pin → PinId → α) (pins : List Pin) :
    (pins.flatMap fun pin => pin.links.map (tag pin)).length =
      total (pins.map (·.links.length)) := by
  induction pins with
  | nil => rfl
  | cons pin rest ih =>
      rw [List.flatMap_cons, List.length_append, List.length_map, ih]
      rfl

theorem nodup_flatMap_links (once : ∀ pin ∈ pins, pin.links.Nodup)
    (injective : ∀ pin, Function.Injective (tag pin))
    (apart : pins.Pairwise fun first second => ∀ far other, tag first far ≠ tag second other) :
    (pins.flatMap fun pin => pin.links.map (tag pin)).Nodup := by
  refine List.nodup_flatMap.mpr ⟨fun pin member => (once pin member).map (injective pin), ?_⟩
  refine apart.imp fun distinct => ?_
  intro link first second
  obtain ⟨far, _, rfl⟩ := List.mem_map.mp first
  obtain ⟨other, _, same⟩ := List.mem_map.mp second
  exact distinct far other same.symm

end Tagged

theorem Sound.pairwise_livePins (sound : graph.Sound) :
    graph.livePins.Pairwise fun first second => first.id ≠ second.id := by
  rw [livePins, List.pairwise_filterMap, List.pairwise_iff_getElem]
  intro i j iBound jBound earlier first firstLive second secondLive same
  have firstPlace : graph.pin? ⟨i⟩ = some first := by
    rw [pin?, Array.getElem?_eq_getElem (by simpa using iBound)]
    simpa using firstLive
  have secondPlace : graph.pin? ⟨j⟩ = some second := by
    rw [pin?, Array.getElem?_eq_getElem (by simpa using jBound)]
    simpa using secondLive
  rw [sound.id_eq firstPlace, sound.id_eq secondPlace] at same
  cases same
  exact Nat.lt_irrefl _ earlier

theorem Regular.pairwise_pinsOf (regular : graph.Regular) (read : graph.pinsOf node = .ok pins) :
    pins.Pairwise fun first second => first.id ≠ second.id := by
  obtain ⟨data, found, rfl⟩ := regular.eq_of_pinsOf read
  rw [List.pairwise_filterMap]
  refine (regular.pinsNodup found).imp fun {id other} different first live second otherLive => ?_
  rw [regular.id_eq live, regular.id_eq otherLive]
  exact different

/-- No two of them have the same direction and name. -/
theorem Regular.pairwise_ports (regular : graph.Regular) (read : graph.pinsOf node = .ok pins) :
    pins.Pairwise fun first second =>
      ¬ (first.direction = second.direction ∧ first.name = second.name) := by
  refine (regular.pairwise_pinsOf read).imp_of_mem ?_
  rintro first second firstMember secondMember different ⟨direction, name⟩
  obtain ⟨firstLive, firstOwner⟩ := (regular.mem_pinsOf_iff read).mp firstMember
  obtain ⟨secondLive, secondOwner⟩ := (regular.mem_pinsOf_iff read).mp secondMember
  exact different (regular.namesUnique (face?_of_pin? firstLive) (face?_of_pin? secondLive)
    (firstOwner.trans secondOwner.symm) name direction)

theorem mem_flatMap_namedLinks_iff {direction : PinDirection} {name : String} {far : PinId} :
    ⟨direction, name, far⟩ ∈ pins.flatMap Pin.namedLinks ↔
      ∃ pin ∈ pins, pin.direction = direction ∧ pin.name = name ∧ far ∈ pin.links := by
  simp only [List.mem_flatMap, Pin.namedLinks, List.mem_map, NamedLink.mk.injEq]
  constructor
  · rintro ⟨pin, member, other, linked, rfl, rfl, rfl⟩
    exact ⟨pin, member, rfl, rfl, linked⟩
  · rintro ⟨pin, member, rfl, rfl, linked⟩
    exact ⟨pin, member, far, linked, rfl, rfl, rfl⟩

theorem Sound.mem_namedLinks_iff (sound : graph.Sound) (read : graph.pinsOf node = .ok pins)
    {direction : PinDirection} {name : String} {far : PinId} :
    ⟨direction, name, far⟩ ∈ pins.flatMap Pin.namedLinks ↔
      ∃ id, graph.Port node direction name id ∧ far ∈ graph.links id := by
  rw [mem_flatMap_namedLinks_iff]
  constructor
  · rintro ⟨pin, member, rfl, rfl, linked⟩
    obtain ⟨live, owner⟩ := (sound.mem_pinsOf_iff read).mp member
    exact ⟨pin.id, ⟨pin.face, face?_of_pin? live, owner, rfl, rfl⟩, by rwa [links_of_pin? live]⟩
  · rintro ⟨id, ⟨face, found, owner, rfl, rfl⟩, linked⟩
    obtain ⟨pin, live, rfl, same⟩ := exists_pin?_of_face? found
    refine ⟨pin, (sound.mem_pinsOf_iff read).mpr ⟨?_, owner⟩, rfl, rfl, same ▸ linked⟩
    rwa [sound.id_eq live]

theorem Regular.nodup_namedLinks (regular : graph.Regular) (read : graph.pinsOf node = .ok pins) :
    (pins.flatMap Pin.namedLinks).Nodup := by
  refine nodup_flatMap_links ?_ (fun pin first second same => congrArg NamedLink.far same) ?_
  · intro pin member
    rw [← links_of_pin? ((regular.mem_pinsOf_iff read).mp member).1]
    exact regular.linksNodup _
  · exact (regular.pairwise_ports read).imp fun apart far other same =>
      apart ⟨congrArg NamedLink.direction same, congrArg NamedLink.name same⟩

theorem nodeLinkCount_eq (read : graph.pinsOf node = .ok pins) :
    graph.nodeLinkCount node = .ok (pins.flatMap Pin.namedLinks).length := by
  rw [nodeLinkCount, read]
  exact congrArg Except.ok (length_flatMap_links _ pins).symm

def linkEnds (graph : Graph) : List (PinId × PinId) :=
  graph.livePins.flatMap fun pin => pin.links.map (pin.id, ·)

theorem linkCount_eq (graph : Graph) : graph.linkCount = graph.linkEnds.length / 2 := by
  rw [linkCount, linkEnds, length_flatMap_links]

theorem Sound.mem_linkEnds_iff (sound : graph.Sound) {id far : PinId} :
    (id, far) ∈ graph.linkEnds ↔ far ∈ graph.links id := by
  simp only [linkEnds, List.mem_flatMap, List.mem_map, Prod.mk.injEq]
  constructor
  · rintro ⟨pin, member, other, linked, rfl, rfl⟩
    rwa [links_of_pin? (sound.pin?_of_mem_livePins member)]
  · intro linked
    obtain ⟨face, found⟩ := face?_isSome_of_mem_links linked
    obtain ⟨pin, live, _, same⟩ := exists_pin?_of_face? found
    exact ⟨pin, mem_livePins_iff.mpr ⟨id, live⟩, far, same ▸ linked, sound.id_eq live, rfl⟩

private theorem Regular.nodup_ends (regular : graph.Regular)
    (live : ∀ pin ∈ pins, graph.pin? pin.id = some pin)
    (apart : pins.Pairwise fun first second => first.id ≠ second.id) :
    (pins.flatMap fun pin => pin.links.map (pin.id, ·)).Nodup := by
  refine nodup_flatMap_links ?_ (fun pin first second same => congrArg Prod.snd same) ?_
  · intro pin member
    rw [← links_of_pin? (live pin member)]
    exact regular.linksNodup _
  · exact apart.imp fun different far other same => different (congrArg Prod.fst same)

theorem Regular.nodup_linkEnds (regular : graph.Regular) : graph.linkEnds.Nodup :=
  regular.nodup_ends (fun _ member => regular.pin?_of_mem_livePins member)
    regular.pairwise_livePins

theorem Regular.swap_linkEnds (regular : graph.Regular) :
    (graph.linkEnds.map Prod.swap).Perm graph.linkEnds := by
  refine (List.perm_ext_iff_of_nodup (regular.nodup_linkEnds.map Prod.swap_injective)
    regular.nodup_linkEnds).mpr ?_
  rintro ⟨id, far⟩
  rw [List.mem_map_of_involutive Prod.swap_swap, Prod.swap_prod_mk, regular.mem_linkEnds_iff,
    regular.mem_linkEnds_iff, regular.mem_links_comm]

theorem Regular.countP_linkEnds_far (regular : graph.Regular) (test : PinId → Bool) :
    graph.linkEnds.countP (test ·.2) = graph.linkEnds.countP (test ·.1) := by
  rw [← regular.swap_linkEnds.countP_eq, List.countP_map]
  rfl

def ownsPin (graph : Graph) (node : NodeId) (id : PinId) : Bool :=
  (graph.pin? id).any (·.owner = node)

theorem ownsPin_iff {id : PinId} : graph.ownsPin node id ↔ graph.Owns node id := by
  rw [ownsPin, Option.any_eq_true]
  constructor
  · rintro ⟨pin, live, owner⟩
    exact (owns_iff_of_pin? live).mpr (of_decide_eq_true owner)
  · rintro ⟨face, found, owner⟩
    obtain ⟨pin, live, rfl, _⟩ := exists_pin?_of_face? found
    exact ⟨pin, live, decide_eq_true owner⟩

/-- A link that the node has no part in. -/
def Passes (graph : Graph) (node : NodeId) (id far : PinId) : Prop :=
  far ∈ graph.links id ∧ ¬ graph.Owns node id ∧ ¬ graph.Owns node far

def passingEnds (graph : Graph) (node : NodeId) : List (PinId × PinId) :=
  graph.linkEnds.filter fun ends => !graph.ownsPin node ends.1 && !graph.ownsPin node ends.2

theorem Sound.mem_passingEnds_iff (sound : graph.Sound) {id far : PinId} :
    (id, far) ∈ graph.passingEnds node ↔ graph.Passes node id far := by
  rw [passingEnds, List.mem_filter, sound.mem_linkEnds_iff, Passes, ← ownsPin_iff, ← ownsPin_iff]
  simp

theorem Regular.countP_owned_linkEnds (regular : graph.Regular)
    (read : graph.pinsOf node = .ok pins) :
    graph.linkEnds.countP (graph.ownsPin node ·.1) = (pins.flatMap Pin.namedLinks).length := by
  have own : (graph.linkEnds.filter (graph.ownsPin node ·.1)).Perm
      (pins.flatMap fun pin => pin.links.map (pin.id, ·)) := by
    have ownNodup := regular.nodup_ends
      (fun _ member => ((regular.mem_pinsOf_iff read).mp member).1) (regular.pairwise_pinsOf read)
    refine (List.perm_ext_iff_of_nodup (regular.nodup_linkEnds.filter _) ownNodup).mpr ?_
    rintro ⟨id, far⟩
    rw [List.mem_filter, regular.mem_linkEnds_iff, ownsPin_iff]
    simp only [List.mem_flatMap, List.mem_map, Prod.mk.injEq]
    constructor
    · rintro ⟨linked, face, found, owner⟩
      obtain ⟨pin, live, rfl, same⟩ := exists_pin?_of_face? found
      have sameId := regular.id_eq live
      exact ⟨pin, (regular.mem_pinsOf_iff read).mpr ⟨sameId ▸ live, owner⟩, far, same ▸ linked,
        sameId, rfl⟩
    · rintro ⟨pin, member, other, linked, rfl, rfl⟩
      obtain ⟨live, owner⟩ := (regular.mem_pinsOf_iff read).mp member
      exact ⟨links_of_pin? live ▸ linked, (owns_iff_of_pin? live).mpr owner⟩
  rw [List.countP_eq_length_filter, own.length_eq, length_flatMap_links,
    ← length_flatMap_links fun pin far => NamedLink.mk pin.direction pin.name far]
  rfl

private theorem length_eq_of_apart {α : Type} {first second : α → Bool} {values : List α}
    (apart : ∀ value ∈ values, ¬ (first value ∧ second value)) :
    values.length = values.countP first + values.countP second +
      (values.filter fun value => !first value && !second value).length := by
  induction values with
  | nil => rfl
  | cons value rest ih =>
      obtain ⟨here, others⟩ := List.forall_mem_cons.mp apart
      simp only [List.length_cons, List.countP_cons, List.filter_cons, ih others]
      cases firstHolds : first value <;> cases secondHolds : second value
      · simp
        omega
      · simp
        omega
      · simp
        omega
      · exact (here ⟨firstHolds, secondHolds⟩).elim

/-- The links of a graph are those of a node and those that pass it by. -/
theorem Regular.linkCount_eq_add (regular : graph.Regular) (read : graph.pinsOf node = .ok pins) :
    graph.linkCount =
      (pins.flatMap Pin.namedLinks).length + (graph.passingEnds node).length / 2 := by
  have apart : ∀ ends ∈ graph.linkEnds,
      ¬ (graph.ownsPin node ends.1 ∧ graph.ownsPin node ends.2) := by
    rintro ⟨id, far⟩ member ⟨own, farOwn⟩
    have linked := regular.mem_linkEnds_iff.mp member
    exact regular.not_owns_of_mem_links linked (ownsPin_iff.mp own) (ownsPin_iff.mp farOwn)
  have whole := length_eq_of_apart apart
  rw [regular.countP_linkEnds_far, regular.countP_owned_linkEnds read] at whole
  rw [linkCount_eq, passingEnds, whole]
  omega

theorem length_passingEnds_eq (regular : before.Regular) (afterRegular : after.Regular)
    (same : ∀ id far, after.Passes node id far ↔ before.Passes node id far) :
    (after.passingEnds node).length = (before.passingEnds node).length := by
  refine ((List.perm_ext_iff_of_nodup (afterRegular.nodup_linkEnds.filter _)
    (regular.nodup_linkEnds.filter _)).mpr ?_).length_eq
  rintro ⟨id, far⟩
  exact afterRegular.mem_passingEnds_iff.trans
    ((same id far).trans regular.mem_passingEnds_iff.symm)

end Graph

end RigLowering
