import RigLowering.Proofs.RestoredLiterals

namespace RigLowering

/-- Later identities, counted from `start`, are moved on by `count`. -/
def PinId.shift (start count : Nat) (id : PinId) : PinId :=
  if start ≤ id.index then ⟨id.index + count⟩ else id

theorem PinId.shift_injective (start count : Nat) :
    Function.Injective (PinId.shift start count) := by
  intro first second same
  cases first
  cases second
  simp only [PinId.shift] at same
  split at same <;> split at same <;> simp only [PinId.mk.injEq] at same ⊢ <;> omega

theorem PinId.shift_of_lt {start count : Nat} {id : PinId} (earlier : id.index < start) :
    PinId.shift start count id = id :=
  if_neg (Nat.not_le_of_lt earlier)

theorem PinId.shift_add (start count index : Nat) :
    PinId.shift start count ⟨start + index⟩ = ⟨start + count + index⟩ := by
  rw [PinId.shift, if_pos (Nat.le_add_right ..)]
  exact congrArg PinId.mk (Nat.add_right_comm ..)

theorem Graph.map_shift_freshIds (start count : Nat) :
    (freshIds start count).map (PinId.shift start count) = freshIds (start + count) count := by
  simp only [freshIds, List.range'_eq_map_range, List.map_map]
  exact List.map_congr_left fun index _ => PinId.shift_add start count index

theorem PinFace.eq_of_spec {face other : PinFace} {id : PinId} (place : face.id = id)
    (owner : face.owner = other.owner) (spec : face.spec = other.spec) :
    face = { other with id } := by
  cases face
  cases other
  simp only [PinFace.spec, PinSpec.mk.injEq] at place owner spec ⊢
  obtain ⟨rfl, rfl, rfl⟩ := spec
  rw [place, owner]

theorem PinSpec.foldl_carryOver_orElse (spec : PinSpec) (old : List Pin)
    {value literal : Option String} (closed : (value <|> literal) = value) :
    (old.foldl spec.carryOver value <|> literal) = old.foldl spec.carryOver value := by
  induction old generalizing value with
  | nil => exact closed
  | cons pin rest ih =>
      rw [List.foldl_cons]
      refine ih ?_
      rw [PinSpec.carryOver]
      split
      · cases pin.defaultValue with
        | none => exact closed
        | some given => rfl
      · exact closed

namespace Graph

variable {graph once again : Graph} {node : NodeId} {specs : List PinSpec} {spec : PinSpec}
  {data : Node} {lost more : Nat} {id new newer far : PinId}

theorem Rebuilt.fits_of_mem_links (first : Rebuilt specs node lost graph once)
    (regular : graph.Regular) (hierarchy : once.hierarchy = graph.hierarchy)
    (hasPin : once.HasPin node spec new) (linked : far ∈ once.links new) : once.fits spec far := by
  obtain ⟨former, port, formerLinked, fitting⟩ := (first.restored hasPin).mp linked
  rwa [first.fits_eq regular.toSound hierarchy port.owns formerLinked]

theorem Rebuilt.mem_links_again_iff (first : Rebuilt specs node lost graph once)
    (second : Rebuilt specs node more once again) (regular : graph.Regular)
    (hierarchy : once.hierarchy = graph.hierarchy) (hasPin : once.HasPin node spec new)
    (later : again.HasPin node spec newer) : far ∈ again.links newer ↔ far ∈ once.links new := by
  rw [second.restored later]
  constructor
  · rintro ⟨other, port, linked, _⟩
    obtain rfl := hasPin.eq_of_port first.regular port
    exact linked
  · intro linked
    exact ⟨new, hasPin.port, linked, first.fits_of_mem_links regular hierarchy hasPin linked⟩

theorem Rebuilt.literals_again (first : Rebuilt specs node lost graph once)
    (second : Rebuilt specs node more once again) (regular : graph.Regular)
    (found : graph.node? node = some data) (hasPin : once.HasPin node spec new)
    (later : again.HasPin node spec newer) : again.literals newer = once.literals new := by
  have literals := first.relit (regular.pinsOf_eq found) hasPin
  have middleRead := first.regular.pinsOf_eq (first.own found)
  by_cases input : spec.direction = .input
  · obtain ⟨face, faceFound, owner, rfl⟩ := hasPin
    obtain ⟨pin, live, rfl, _⟩ := exists_pin?_of_face? faceFound
    have member := (first.regular.mem_pinsOf_iff middleRead).mpr
      ⟨first.regular.id_eq live ▸ live, owner⟩
    have kept := second.literals_of_mem first.regular middleRead member input later
    rw [literals_of_pin? live] at literals ⊢
    obtain ⟨value, object⟩ := Prod.mk.inj literals
    have literal : pin.face.spec.literal = pin.pinType.defaultLiteral := if_pos input
    rw [kept, object, value, ← literal, PinSpec.foldl_carryOver_orElse]
    cases pin.face.spec.literal <;> rfl
  · rw [second.relit middleRead later, literals, PinSpec.foldl_carryOver_of_output input,
      PinSpec.foldl_carryOver_of_output input]

theorem Rebuilt.lost_again (first : Rebuilt specs node lost graph once)
    (second : Rebuilt specs node more once again) (regular : graph.Regular)
    (found : graph.node? node = some data) (hierarchy : once.hierarchy = graph.hierarchy) :
    more = 0 := by
  have middleRead := first.regular.pinsOf_eq (first.own found)
  rw [second.lost_eq middleRead, List.countP_eq_zero]
  rintro ⟨direction, name, far⟩ member
  obtain ⟨id, ⟨face, faceFound, owner, rfl, rfl⟩, linked⟩ :=
    (first.regular.mem_namedLinks_iff middleRead).mp member
  have hasPin : once.HasPin node face.spec id := ⟨face, faceFound, owner, rfl⟩
  rw [Bool.not_eq_true, Bool.not_eq_false']
  exact restores_iff.mpr ⟨face.spec, (first.carries found).mem_specs first.regular hasPin, rfl, rfl,
    first.fits_of_mem_links regular hierarchy hasPin linked⟩

theorem Rebuilt.hasPin_shift (first : Rebuilt specs node lost graph once)
    (second : Rebuilt specs node more once again) (found : graph.node? node = some data)
    (hasPin : once.HasPin node spec id) :
    again.HasPin node spec (PinId.shift graph.pins.size specs.length id) := by
  obtain ⟨index, asked, rfl⟩ := first.exists_index found hasPin
  rw [PinId.shift_add, ← first.pinCount]
  exact second.made asked

theorem Rebuilt.shift_of_not_owns (first : Rebuilt specs node lost graph once)
    (found : graph.node? node = some data) {face : PinFace} (live : once.face? id = some face)
    (foreign : ¬ once.Owns node id) : PinId.shift graph.pins.size specs.length id = id := by
  refine PinId.shift_of_lt (Nat.lt_of_not_le fun later => foreign ?_)
  exact (first.owns_iff found).mpr ⟨later, lt_size_of_face? live⟩

theorem Rebuilt.mem_links_shift_of_owns (first : Rebuilt specs node lost graph once)
    (second : Rebuilt specs node more once again) (regular : graph.Regular)
    (found : graph.node? node = some data) (hierarchy : once.hierarchy = graph.hierarchy)
    (owned : once.Owns node id) {face : PinFace} (farLive : once.face? far = some face) :
    PinId.shift graph.pins.size specs.length far ∈
        again.links (PinId.shift graph.pins.size specs.length id) ↔ far ∈ once.links id := by
  obtain ⟨own, ownFound, owner⟩ := owned
  have hasPin : once.HasPin node own.spec id := ⟨own, ownFound, owner, rfl⟩
  have later := first.hasPin_shift second found hasPin
  by_cases farOwned : once.Owns node far
  · obtain ⟨other, otherFound, farOwner⟩ := farOwned
    have farHasPin : once.HasPin node other.spec far := ⟨other, otherFound, farOwner, rfl⟩
    have farLater := first.hasPin_shift second found farHasPin
    exact iff_of_false
      (fun linked => second.regular.not_owns_of_mem_links linked later.owns farLater.owns)
      fun linked => first.regular.not_owns_of_mem_links linked hasPin.owns farHasPin.owns
  · rw [first.shift_of_not_owns found farLive farOwned]
    exact first.mem_links_again_iff second regular hierarchy hasPin later

theorem Rebuilt.mem_links_shift_iff (first : Rebuilt specs node lost graph once)
    (second : Rebuilt specs node more once again) (regular : graph.Regular)
    (found : graph.node? node = some data) (hierarchy : once.hierarchy = graph.hierarchy)
    {face farFace : PinFace} (live : once.face? id = some face)
    (farLive : once.face? far = some farFace) :
    PinId.shift graph.pins.size specs.length far ∈
        again.links (PinId.shift graph.pins.size specs.length id) ↔ far ∈ once.links id := by
  by_cases owned : once.Owns node id
  · exact first.mem_links_shift_of_owns second regular found hierarchy owned farLive
  by_cases farOwned : once.Owns node far
  · rw [second.regular.mem_links_comm, first.regular.mem_links_comm]
    exact first.mem_links_shift_of_owns second regular found hierarchy farOwned live
  · have middleFound := first.own found
    have passes : again.Passes node id far ↔ once.Passes node id far := second.passes
    rw [Passes, Passes, and_iff_left ⟨second.not_owns middleFound (lt_size_of_face? live),
      second.not_owns middleFound (lt_size_of_face? farLive)⟩,
      and_iff_left ⟨owned, farOwned⟩] at passes
    rw [first.shift_of_not_owns found live owned, first.shift_of_not_owns found farLive farOwned]
    exact passes

theorem Rebuilt.shift_keeps (first : Rebuilt specs node lost graph once)
    (second : Rebuilt specs node more once again) (regular : graph.Regular)
    (found : graph.node? node = some data) {face : PinFace} (live : once.face? id = some face) :
    again.face? (PinId.shift graph.pins.size specs.length id) =
        some { face with id := PinId.shift graph.pins.size specs.length id } ∧
      again.literals (PinId.shift graph.pins.size specs.length id) = once.literals id := by
  by_cases owned : once.Owns node id
  · have hasPin : once.HasPin node face.spec id :=
      ⟨face, live, (owns_iff_of_face? live).mp owned, rfl⟩
    have later := first.hasPin_shift second found hasPin
    refine ⟨?_, first.literals_again second regular found hasPin later⟩
    obtain ⟨new, newFound, owner, spec⟩ := later
    rw [newFound, PinFace.eq_of_spec (second.regular.faceId newFound)
      (owner.trans ((owns_iff_of_face? live).mp owned).symm) spec]
  · obtain ⟨sameFace, literals⟩ := second.stays (lt_size_of_face? live) owned
    obtain rfl := first.regular.faceId live
    rw [first.shift_of_not_owns found live owned]
    exact ⟨sameFace.trans live, literals⟩

theorem Rebuilt.exists_shift_eq (first : Rebuilt specs node lost graph once)
    (second : Rebuilt specs node more once again) (found : graph.node? node = some data)
    {face : PinFace} (live : again.face? id = some face) :
    ∃ earlier former, PinId.shift graph.pins.size specs.length earlier = id ∧
      once.face? earlier = some former := by
  have middleFound := first.own found
  by_cases owned : again.Owns node id
  · obtain ⟨own, ownFound, owner⟩ := owned
    obtain ⟨index, asked, rfl⟩ := second.exists_index middleFound ⟨own, ownFound, owner, rfl⟩
    obtain ⟨former, formerFound, _⟩ := first.made asked
    exact ⟨_, former, (PinId.shift_add ..).trans (by rw [first.pinCount]), formerFound⟩
  · have present : id.index < once.pins.size := Nat.lt_of_not_le fun later =>
      owned ((second.owns_iff middleFound).mpr ⟨later, lt_size_of_face? live⟩)
    by_cases gone : once.Owns node id
    · cases (second.gone gone).symm.trans live
    · have formerFound := (second.stays present gone).1.symm.trans live
      exact ⟨id, face, first.shift_of_not_owns found formerFound gone, formerFound⟩

/-- The links of a pin are those it had, one for one. -/
theorem Rebuilt.links_perm_shift (first : Rebuilt specs node lost graph once)
    (second : Rebuilt specs node more once again) (regular : graph.Regular)
    (found : graph.node? node = some data) (hierarchy : once.hierarchy = graph.hierarchy)
    {face : PinFace} (live : once.face? id = some face) :
    (again.links (PinId.shift graph.pins.size specs.length id)).Perm
      ((once.links id).map (PinId.shift graph.pins.size specs.length)) := by
  refine (List.perm_ext_iff_of_nodup (second.regular.linksNodup _)
    ((first.regular.linksNodup id).map (PinId.shift_injective ..))).mpr fun far => ?_
  rw [List.mem_map]
  constructor
  · intro linked
    obtain ⟨_, _, _, farLive, _⟩ := second.regular.joinable linked
    obtain ⟨earlier, former, rfl, formerLive⟩ := first.exists_shift_eq second found farLive
    exact ⟨earlier, (first.mem_links_shift_iff second regular found hierarchy live formerLive).mp
      linked, rfl⟩
  · rintro ⟨earlier, linked, rfl⟩
    obtain ⟨_, _, _, farLive, _⟩ := first.regular.joinable linked
    exact (first.mem_links_shift_iff second regular found hierarchy live farLive).mpr linked

/-- The graphs agree, once the pins of the node have been renamed. -/
structure Renamed (node : NodeId) (rename : PinId → PinId) (before after : Graph) : Prop where
  injective : Function.Injective rename
  own : ∃ data, before.node? node = some data ∧
    after.node? node = some { data with pins := data.pins.map rename }
  otherNodes : ∀ other, other ≠ node → after.node? other = before.node? other
  otherPins : ∀ id pin, before.pin? id = some pin → pin.owner ≠ node → rename id = id
  pins : ∀ id pin, before.pin? id = some pin → ∃ links,
    after.pin? (rename id) = some { pin with id := rename id, links } ∧
      links.Perm (pin.links.map rename)
  noMorePins : ∀ id pin, after.pin? id = some pin →
    ∃ earlier former, rename earlier = id ∧ before.pin? earlier = some former
  outline : after.outline = before.outline

theorem Rebuilt.renamed (first : Rebuilt specs node lost graph once)
    (second : Rebuilt specs node more once again) (regular : graph.Regular)
    (found : graph.node? node = some data) (hierarchy : once.hierarchy = graph.hierarchy)
    (outline : again.outline = once.outline) :
    Renamed node (PinId.shift graph.pins.size specs.length) once again := by
  have middleFound := first.own found
  refine ⟨PinId.shift_injective _ _, ⟨_, middleFound, ?_⟩, fun _ => second.others, ?_, ?_, ?_,
    outline⟩
  · rw [second.own middleFound, first.pinCount, map_shift_freshIds]
  · intro id pin live foreign
    exact first.shift_of_not_owns found (face?_of_pin? live) (mt (owns_iff_of_pin? live).mp foreign)
  · intro id pin live
    have face := face?_of_pin? live
    have links := first.links_perm_shift second regular found hierarchy face
    rw [links_of_pin? live] at links
    obtain ⟨sameFace, literals⟩ := first.shift_keeps second regular found face
    rw [literals_of_pin? live] at literals
    have renamed : again.face? (PinId.shift graph.pins.size specs.length id) =
        some ({ pin with id := PinId.shift graph.pins.size specs.length id } : Pin).face := sameFace
    exact ⟨_, pin?_of_face? renamed literals, links⟩
  · intro id pin live
    obtain ⟨earlier, former, same, formerFound⟩ :=
      first.exists_shift_eq second found (face?_of_pin? live)
    obtain ⟨formerPin, formerLive, _⟩ := exists_pin?_of_face? formerFound
    exact ⟨earlier, formerPin, same, formerLive⟩

/-- Rebuilding an evaluator again only gives its pins other places. -/
theorem WellFormed.rebuild_again {registry : RigRegistry} {settings : EvaluatorSettings}
    (built : registry.Built) (wellFormed : graph.WellFormed)
    (evaluates : graph.Evaluates node settings) :
    ∃ lost once again, (Edit.rebuild registry node).run graph = (.ok lost, once) ∧
      (Edit.rebuild registry node).run once = (.ok 0, again) ∧
      Renamed node
        (PinId.shift graph.pins.size (registry.evaluatorPins settings).length) once again := by
  have regular := wellFormed_iff_regular.mp wellFormed
  obtain ⟨data, found, asked⟩ := id evaluates
  obtain ⟨lost, once, ran, first⟩ := Edit.rebuilt_of_rebuild built regular evaluates
  have evaluatesAgain : once.Evaluates node settings := ⟨_, first.own found, asked⟩
  obtain ⟨more, again, ranAgain, second⟩ :=
    Edit.rebuilt_of_rebuild built first.regular evaluatesAgain
  have kept := (Edit.rebuild_keeps_outline registry node).holds_after ran rfl
  have keptAgain := (Edit.rebuild_keeps_outline registry node).holds_after ranAgain rfl
  have hierarchy : once.hierarchy = graph.hierarchy :=
    congrArg (fun outline => outline.2.2.1) kept
  obtain rfl := first.lost_again second regular found hierarchy
  exact ⟨lost, once, again, ran, ranAgain,
    first.renamed second regular found hierarchy keptAgain⟩

end Graph

namespace StaleLeg

open RigLowering.Graph

/-- The five pins that the leg has left go on from the places after the first eleven. -/
theorem rebuilds_again_alike : registry.Built ∧ graph.WellFormed ∧
    graph.Evaluates ⟨0⟩ settings ∧ ∃ once again,
      (Edit.rebuild registry ⟨0⟩).run graph = (.ok 3, once) ∧
      (Edit.rebuild registry ⟨0⟩).run once = (.ok 0, again) ∧
      Renamed ⟨0⟩ (PinId.shift 11 5) once again := by
  obtain ⟨lost, once, again, ran, ranAgain, renamed⟩ :=
    WellFormed.rebuild_again registryBuilt wellFormed evaluates
  have counted := rebuild_loses_three
  rw [ran] at counted
  obtain rfl : lost = 3 := Option.some.inj counted
  have five : (registry.evaluatorPins settings).length = 5 := by decide +kernel
  rw [five] at renamed
  exact ⟨registryBuilt, wellFormed, evaluates, once, again, ran, ranAgain, renamed⟩

end StaleLeg

end RigLowering
