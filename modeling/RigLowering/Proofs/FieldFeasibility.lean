import RigLowering.Proofs.FieldReads
import RigLowering.Proofs.NodeMaking

namespace RigLowering

namespace Graph

/-- The pin has the links that it had in `base`, and what is there was there before. -/
structure Awaits (base : Graph) (id : PinId) (graph : Graph) : Prop extends Regular graph where
  extended : base.Extends graph
  hierarchy : graph.hierarchy = base.hierarchy
  links : graph.links id = base.links id

section Awaits

variable {base graph : Graph} {node other : NodeId} {id dest : PinId} {spec : PinSpec}
  {name destName : String} {direction : PinDirection} {pinType : PinType}

theorem HasPin.ne_of_new {otherSpec : PinSpec} (old : base.HasPin node spec id)
    (sound : base.Sound) (extension : base.Extends graph)
    (made : graph.HasPin other otherSpec dest) (new : base.nodes.size ≤ other.index) :
    id ≠ dest := by
  rintro rfl
  have owner := made.owner_eq (old.mono extension)
  exact Nat.not_lt_of_le new (owner ▸ old.owner_lt_size sound)

/-- What an output is linked to is an input, and the link is typed if that takes what comes. -/
theorem HasPin.exists_far (starts : graph.HasPin node ⟨.output, pinType, name⟩ id)
    (sound : graph.Sound) {far : PinId} (member : far ∈ graph.links id) :
    ∃ owner farType farName, graph.HasPin owner ⟨.input, farType, farName⟩ far ∧
      (graph.Fits id far ∧ graph.Fits far id ↔ pinType.feeds graph.hierarchy farType) := by
  obtain ⟨face, farFace, found, farFound, directions, _⟩ := sound.joinable member
  obtain ⟨_, sameFound, _, spec⟩ := starts
  cases found.symm.trans sameFound
  have output : face.direction = .output := congrArg PinSpec.direction spec
  have same : face.pinType = pinType := congrArg PinSpec.pinType spec
  have input : farFace.direction = .input := by
    rw [PinDirection.eq_opposite_of_ne directions, output]
    rfl
  refine ⟨farFace.owner, farFace.pinType, farFace.name, ⟨farFace, farFound, rfl, ?_⟩, ?_⟩
  · rw [← input]
    rfl
  · rw [fits_iff found farFound, fits_iff farFound found, output, input, same]
    simp

theorem Awaits.typedAt_iff (awaits : base.Awaits id graph) (sound : base.Sound) :
    graph.TypedAt id ↔ base.TypedAt id := by
  unfold TypedAt
  rw [awaits.links]
  refine forall₂_congr fun far member => ?_
  obtain ⟨face, farFace, found, farFound, _⟩ := sound.joinable member
  have later := awaits.extended.face?_eq found
  have farLater := awaits.extended.face?_eq farFound
  rw [fits_iff later farLater, fits_iff farLater later, fits_iff found farFound,
    fits_iff farFound found, awaits.hierarchy]

/-- The links can be moved to a pin of the same type that a new node has. -/
theorem Awaits.linkable (awaits : base.Awaits id graph) (sound : base.Sound)
    (typed : base.TypedAt id) (origin : base.HasPin node ⟨direction, pinType, name⟩ id)
    (hasDest : graph.HasPin other ⟨direction, pinType, destName⟩ dest)
    (new : base.nodes.size ≤ other.index) : ∀ far ∈ graph.links id, graph.Linkable dest far := by
  intro far member
  obtain ⟨face, found, _, spec⟩ := origin
  obtain ⟨destFace, destFound, rfl, destSpec⟩ := hasDest
  obtain ⟨_, farFace, _, farFound, _⟩ := sound.joinable (awaits.links ▸ member)
  refine ((awaits.typedAt_iff sound).mpr typed).linkable awaits.toSound member
    (awaits.extended.face?_eq found) (awaits.extended.face?_eq farFound) destFound ?_ ?_ ?_
  · exact (congrArg PinSpec.direction destSpec).trans (congrArg PinSpec.direction spec).symm
  · exact (congrArg PinSpec.pinType destSpec).trans (congrArg PinSpec.pinType spec).symm
  · intro same
    obtain ⟨data, ownerFound, _⟩ := sound.owned farFound
    exact Nat.not_lt_of_le new (same ▸ lt_size_of_node? ownerFound)

end Awaits

end Graph

namespace Pass

open RigLowering.Graph

variable {α : Type} {before after : PassState}

theorem Composed.hierarchy_eq {step : Pass α} {value : α} (composed : step.Composed)
    (yielded : Yields step before value after) :
    after.graph.hierarchy = before.graph.hierarchy :=
  ((durable_hierarchy _).pass composed).holds_after yielded rfl

theorem awaits_of_spawn {kind : NodeKind} {specs : List PinSpec} {source node : NodeId}
    (id : PinId) (regular : before.graph.Regular) (primitive : kind.settings? = none)
    (spawned : Yields (spawn kind specs source) before node after) :
    before.graph.Awaits id after.graph := by
  have makes := spawn_makes regular primitive spawned
  exact ⟨makes.regular, makes.extended, (Composed.spawn kind specs source).hierarchy_eq spawned,
    congrFun makes.sameLinks id⟩

theorem Composed.prepare (access : FieldAccess) (field : Field) :
    Composed (access.prepare field) := by
  have single (kind : NodeKind) (name : String) : Composed (access.prepareBy field kind name) :=
    (spawn _ _ _).bind fun _ => (findPin _ _ _).bind fun _ => (routeValue _ _).bind fun _ =>
      (attachHandle _ _).bind fun _ => pure _
  unfold FieldAccess.prepare
  split
  · exact (spawn _ _ _).bind fun _ => (findPin _ _ _).bind fun _ => (findPin _ _ _).bind fun _ =>
      (routeValue _ _).bind fun _ => (spawn _ _ _).bind fun _ => (findPin _ _ _).bind fun _ =>
        (link _ _).bind fun _ => (attachHandle _ _).bind fun _ => pure _
  · exact single _ _
  · exact single _ _

theorem Composed.fetch (access : FieldAccess) (field : Field) : Composed (access.fetch field) :=
  (spawn _ _ _).bind fun _ => (findPin _ _ _).bind fun _ => (attachHandle _ _).bind fun _ => pure _

end Pass

namespace Field

/-- A node that sets a property has a pin of the property's name beside pins of its own.  The
names of these are not kept from fields. -/
def Clashes (field : Field) : Prop :=
  field.kind ≠ .delegate ∧ (field.name = PinName.execute ∨ field.name = PinName.self)

instance (field : Field) : Decidable field.Clashes :=
  inferInstanceAs (Decidable (_ ∧ _))

end Field

namespace FieldAccess

open RigLowering.Graph

variable {access : FieldAccess} {field : Field} {before after : PassState} {node : NodeId}
  {name : String}

/-- The pins that the access is about are there and fit the field: the external one with its links,
the one that the owner comes from, and for a write the one that execution goes on from. -/
structure Serves (access : FieldAccess) (field : Field) (graph : Graph) : Prop where
  wellFormed : graph.WellFormed
  external : ∃ pin, graph.pin? access.external = some pin ∧ pin.owner = access.source ∧
    pin.direction = field.direction ∧ pin.pinType = field.pinType ∧
      ∀ id ∈ pin.links, ∃ far, graph.pin? id = some far ∧ pin.isTypedWith graph.hierarchy far
  handle : ∃ pin, graph.pin? access.handle = some pin ∧ pin.owner ≠ access.source ∧
    pin.direction = .output ∧ pin.pinType = .object access.owner
  exec : field.direction = .input → ∃ id pin, access.exec = some id ∧ graph.pin? id = some pin ∧
    pin.direction = .output ∧ pin.pinType = .exec

/-- What execution goes on to from the pin can be gone on to from another. -/
def ExecMovable (access : FieldAccess) (graph : Graph) : Prop :=
  ∀ exec pin, access.exec = some exec → graph.pin? exec = some pin →
    ∀ id ∈ pin.links, ∃ far, graph.pin? id = some far ∧ pin.isTypedWith graph.hierarchy far

section Serves

variable {graph : Graph}

theorem Serves.regular (serves : access.Serves field graph) : graph.Regular :=
  wellFormed_iff_regular.mp serves.wellFormed

theorem Serves.sound (serves : access.Serves field graph) : graph.Sound :=
  serves.regular.toSound

theorem Serves.hasExternal (serves : access.Serves field graph) :
    ∃ name, graph.HasPin access.source ⟨field.direction, field.pinType, name⟩ access.external := by
  obtain ⟨pin, live, owner, direction, pinType, _⟩ := serves.external
  exact ⟨pin.name, owner ▸ direction ▸ pinType ▸ hasPin_of_pin? live⟩

theorem Serves.hasHandle (serves : access.Serves field graph) :
    ∃ node name, node ≠ access.source ∧
      graph.HasPin node ⟨.output, .object access.owner, name⟩ access.handle := by
  obtain ⟨pin, live, apart, direction, pinType⟩ := serves.handle
  exact ⟨pin.owner, pin.name, apart, direction ▸ pinType ▸ hasPin_of_pin? live⟩

theorem Serves.typedAt (serves : access.Serves field graph) : graph.TypedAt access.external := by
  obtain ⟨pin, live, _, _, _, typed⟩ := serves.external
  exact (serves.sound.typedAt_iff live).mpr typed

theorem Serves.source (serves : access.Serves field graph) :
    ∃ data, graph.node? access.source = some data := by
  obtain ⟨_, face, found, owner, _⟩ := serves.hasExternal
  exact owner ▸ (serves.sound.owned found).imp fun _ => And.left

theorem Serves.stands (serves : access.Serves field graph) : access.Stands graph := by
  obtain ⟨_, external⟩ := serves.hasExternal
  obtain ⟨node, _, apart, handle⟩ := serves.hasHandle
  exact ⟨external.lt_size, fun same => apart (handle.owner_eq (same ▸ external))⟩

end Serves

theorem succeeds_transferPin {base : Graph} {dest : PinId} (serves : access.Serves field base)
    (awaits : base.Awaits access.external before.graph)
    (hasDest : before.graph.HasPin node ⟨field.direction, field.pinType, name⟩ dest)
    (new : base.nodes.size ≤ node.index) :
    Succeeds (Pass.transferPin access.external dest) before := by
  obtain ⟨externalName, external⟩ := serves.hasExternal
  have linkable := awaits.linkable serves.sound serves.typedAt external hasDest new
  have different := external.ne_of_new serves.sound awaits.extended hasDest new
  obtain ⟨face, found, _, spec⟩ := external.mono awaits.extended
  obtain ⟨destFace, destFound, _, destSpec⟩ := hasDest
  exact (Pass.succeeds_transferPin_iff different found destFound
    ((congrArg PinSpec.direction destSpec).trans (congrArg PinSpec.direction spec).symm)).mpr
      linkable

theorem succeeds_attachHandle {base : Graph} {self : PinId} (serves : access.Serves field base)
    (regular : before.graph.Regular) (extension : base.Extends before.graph)
    (takes : before.graph.HasPin node ⟨.input, .object access.owner, PinName.self⟩ self)
    (new : base.nodes.size ≤ node.index) : Succeeds (access.attachHandle node) before := by
  obtain ⟨owner, _, _, handle⟩ := serves.hasHandle
  have apart : owner ≠ node := by
    rintro rfl
    exact Nat.not_lt_of_le new (handle.owner_lt_size serves.sound)
  refine (Pass.succeeds_findPin_bind_iff regular takes).mpr ?_
  exact (Pass.succeeds_link_iff _ _).mpr
    (.inl ((handle.mono extension).mates takes apart (PinType.feeds_self _ _)))

theorem distinct_writePins_iff :
    PinSpec.Distinct (access.writePins field name) ↔
      name ≠ PinName.self ∧ name ≠ PinName.execute := by
  simp only [PinSpec.Distinct, writePins, PrimitivePins.execution, List.cons_append,
    List.nil_append, List.pairwise_cons, List.mem_cons, List.not_mem_nil, or_false,
    forall_eq_or_imp, forall_eq]
  simp [PinName.self, PinName.execute, and_comm]

theorem succeeds_routeValue {base : Graph} {dest : PinId} (serves : access.Serves field base)
    (direction : field.direction = .input) (carried : access.isEventOutput = false)
    (awaits : base.Awaits access.external before.graph)
    (takes : before.graph.HasPin node ⟨.input, field.pinType, name⟩ dest)
    (new : base.nodes.size ≤ node.index) : Succeeds (access.routeValue dest) before := by
  rw [routeValue, carried]
  exact succeeds_transferPin serves awaits (direction ▸ takes) new

theorem succeeds_prepareBy_iff (serves : access.Serves field before.graph)
    (direction : field.direction = .input) (carried : access.isEventOutput = false) :
    Succeeds (access.prepareBy field (field.writeKind access.owner) name) before ↔
      name ≠ PinName.self ∧ name ≠ PinName.execute := by
  constructor
  · intro succeeds
    obtain ⟨node, first, spawning, _⟩ := succeeds_bind_iff.mp succeeds
    exact distinct_writePins_iff.mp (Pass.succeeds_spawn_iff.mp ⟨node, first, spawning⟩).2
  · intro free
    refine (Pass.succeeds_spawn_iff.mpr ⟨serves.source, distinct_writePins_iff.mpr free⟩).bind
      fun node first spawning => ?_
    have primitive := field.settings?_writeKind access.owner
    have makes := Pass.spawn_makes serves.regular primitive spawning
    have awaits := Pass.awaits_of_spawn access.external serves.regular primitive spawning
    obtain ⟨value, hasValue⟩ := makes.bears _ (access.value_mem_writePins field name)
    obtain ⟨self, hasSelf⟩ := makes.bears _ (access.self_mem_writePins field name)
    refine (Pass.succeeds_findPin_bind_iff makes.regular hasValue).mpr ?_
    refine (succeeds_routeValue serves direction carried awaits hasValue
      makes.spawned.added).bind fun _ second routing => ?_
    have routed := (routes_of_routeValue makes.regular hasValue
      (makes.unlinked serves.sound hasValue.owns) routing).footprint
    exact (succeeds_attachHandle serves routed.regular (makes.extended.trans routed.extended)
      (hasSelf.mono routed.extended) makes.spawned.added).bind fun _ _ _ => succeeds_pure _

/-- The setter of a copied value. -/
def setFrom (access : FieldAccess) (field : Field) (copied : PinId) : Pass NodeId := do
  let setter ← Pass.spawnSetField access.source access.owner field
  let value ← Pass.findPin setter field.name .input
  Pass.edit (.link copied value)
  access.attachHandle setter
  return setter

theorem succeeds_setFrom_iff {base : Graph} {copied : PinId} (serves : access.Serves field base)
    (regular : before.graph.Regular) (extension : base.Extends before.graph)
    (gives : before.graph.HasPin node ⟨.output, field.pinType, name⟩ copied) :
    Succeeds (access.setFrom field copied) before ↔
      field.name ≠ PinName.self ∧ field.name ≠ PinName.execute := by
  constructor
  · intro succeeds
    obtain ⟨setter, first, spawning, _⟩ := succeeds_bind_iff.mp succeeds
    exact distinct_writePins_iff.mp (Pass.succeeds_spawn_iff.mp ⟨setter, first, spawning⟩).2
  · intro free
    refine (Pass.succeeds_spawn_iff.mpr ⟨extension.exists_node serves.source,
      distinct_writePins_iff.mpr free⟩).bind fun setter first spawning => ?_
    have makes := Pass.spawn_makes regular rfl spawning
    obtain ⟨value, hasValue⟩ := makes.bears _ (access.value_mem_writePins field field.name)
    obtain ⟨self, hasSelf⟩ := makes.bears _ (access.self_mem_writePins field field.name)
    have apart : node ≠ setter := by
      rintro rfl
      exact Nat.not_lt_of_le makes.spawned.added (gives.owner_lt_size regular.toSound)
    refine (Pass.succeeds_findPin_bind_iff makes.regular hasValue).mpr ?_
    refine ((Pass.succeeds_link_iff _ _).mpr (.inl ((gives.mono makes.extended).mates hasValue
      apart (PinType.feeds_self _ _)))).bind fun _ second linking => ?_
    have linked := Pass.link_footprint makes.regular linking
    exact (succeeds_attachHandle serves linked.regular
      (extension.trans (makes.extended.trans linked.extended)) (hasSelf.mono linked.extended)
      (Nat.le_trans extension.nodeCount makes.spawned.added)).bind fun _ _ _ => succeeds_pure _

/-- A copy of the value that comes from outside. -/
def copyExternal (access : FieldAccess) (field : Field) : Pass PinId := do
  let copy ← Pass.spawnCopy access.source field.pinType
  let item ← Pass.findPin copy PinName.item .input
  let copied ← Pass.findPin copy PinName.returnValue .output
  access.routeValue item
  return copied

theorem prepareCopy_eq_copyExternal (access : FieldAccess) (field : Field) :
    access.prepareCopy field = access.copyExternal field >>= access.setFrom field := by
  simp only [prepareCopy, copyExternal, setFrom, bind_assoc, pure_bind]

theorem succeeds_copyExternal (serves : access.Serves field before.graph)
    (direction : field.direction = .input) (carried : access.isEventOutput = false) :
    Succeeds (access.copyExternal field) before := by
  refine (Pass.succeeds_spawn_iff.mpr ⟨serves.source,
    PrimitivePins.distinct_copy field.pinType⟩).bind fun copy first copying => ?_
  have copies := Pass.spawn_makes serves.regular rfl copying
  have awaits := Pass.awaits_of_spawn access.external serves.regular rfl copying
  obtain ⟨item, hasItem⟩ := copies.bears _ (PrimitivePins.item_mem_copy field.pinType)
  obtain ⟨copied, hasCopied⟩ := copies.bears _ (PrimitivePins.returned_mem_copy field.pinType)
  refine (Pass.succeeds_findPin_bind_iff copies.regular hasItem).mpr ?_
  refine (Pass.succeeds_findPin_bind_iff copies.regular hasCopied).mpr ?_
  exact (succeeds_routeValue serves direction carried awaits hasItem copies.spawned.added).bind
    fun _ _ _ => succeeds_pure _

theorem gives_of_copyExternal {copied : PinId} (regular : before.graph.Regular)
    (yielded : Yields (access.copyExternal field) before copied after) :
    after.graph.Regular ∧ before.graph.Extends after.graph ∧
      ∃ copy, after.graph.HasPin copy ⟨.output, field.pinType, PinName.returnValue⟩ copied := by
  obtain ⟨copy, first, copying, afterCopy⟩ := yields_bind_iff.mp yielded
  have copies := Pass.spawn_makes regular rfl copying
  obtain ⟨item, _, searchedItem, afterItem⟩ := yields_bind_iff.mp afterCopy
  obtain ⟨rfl, itemPort⟩ := Pass.yields_port copies.regular searchedItem
  have hasItem := copies.hasPin (.refl _) copies.regular
    (PrimitivePins.item_mem_copy field.pinType) itemPort
  obtain ⟨copied, _, searchedCopied, afterCopied⟩ := yields_bind_iff.mp afterItem
  obtain ⟨rfl, gives⟩ := Pass.yields_port copies.regular searchedCopied
  have hasCopied := copies.hasPin (.refl _) copies.regular
    (PrimitivePins.returned_mem_copy field.pinType) gives
  obtain ⟨_, second, routing, returned⟩ := yields_bind_iff.mp afterCopied
  obtain ⟨rfl, rfl⟩ := yields_pure_iff.mp returned
  have routed := (routes_of_routeValue copies.regular hasItem
    (copies.unlinked regular.toSound hasItem.owns) routing).footprint
  exact ⟨routed.regular, copies.extended.trans routed.extended, copy,
    hasCopied.mono routed.extended⟩

theorem succeeds_prepareCopy_iff (serves : access.Serves field before.graph)
    (direction : field.direction = .input) (carried : access.isEventOutput = false) :
    Succeeds (access.prepareCopy field) before ↔
      field.name ≠ PinName.self ∧ field.name ≠ PinName.execute := by
  rw [prepareCopy_eq_copyExternal]
  have onward {copied : PinId} {middle : PassState}
      (copying : Yields (access.copyExternal field) before copied middle) :
      Succeeds (access.setFrom field copied) middle ↔
        field.name ≠ PinName.self ∧ field.name ≠ PinName.execute := by
    obtain ⟨regular, extended, copy, gives⟩ := gives_of_copyExternal serves.regular copying
    exact succeeds_setFrom_iff serves regular extended gives
  constructor
  · intro succeeds
    obtain ⟨copied, middle, copying, setting⟩ := succeeds_bind_iff.mp succeeds
    exact (onward copying).mp setting
  · intro free
    exact (succeeds_copyExternal serves direction carried).bind fun _ _ copying =>
      (onward copying).mpr free

/-- Up to where execution comes in nothing but the name of the field is in the way. -/
theorem succeeds_prepare_iff (serves : access.Serves field before.graph)
    (direction : field.direction = .input) (carried : access.isEventOutput = false) :
    Succeeds (access.prepare field) before ↔ ¬ field.Clashes := by
  unfold prepare Field.Clashes
  cases kind : field.kind with
  | delegate =>
      rw [succeeds_prepareBy_iff serves direction carried]
      simp [PinName.delegate, PinName.self, PinName.execute]
  | array =>
      rw [succeeds_prepareCopy_iff serves direction carried]
      simp [and_comm]
  | scalar =>
      rw [succeeds_prepareBy_iff serves direction carried]
      simp [and_comm]
  | struct =>
      rw [succeeds_prepareBy_iff serves direction carried]
      simp [and_comm]

/-- A node is spliced in where what execution went on to can follow it. -/
theorem succeeds_spliceExec_iff {owner : NodeId} {exec : PinId} (regular : before.graph.Regular)
    (unplaced : before.graph.Unplaced node)
    (starts : before.graph.HasPin owner ⟨.output, .exec, name⟩ exec) (apart : owner ≠ node)
    (foreign : ∀ far ∈ before.graph.links exec, ¬ before.graph.Owns node far) :
    Succeeds (spliceExec (some exec) node) before ↔ before.graph.TypedAt exec := by
  obtain ⟨⟨execute, hasEntry, _⟩, continuation, hasExit, _⟩ := unplaced
  have movable : Succeeds (Pass.edit (.transferLinks exec continuation)) before ↔
      before.graph.TypedAt exec := by
    have different : exec ≠ continuation := by
      rintro rfl
      exact apart (starts.owner_eq hasExit)
    have ⟨face, found, _, spec⟩ := starts
    have ⟨exitFace, exitFound, _, exitSpec⟩ := hasExit
    rw [Pass.succeeds_edit_iff, Edit.succeeds_transferLinks_iff different found exitFound
      ((congrArg PinSpec.direction exitSpec).trans (congrArg PinSpec.direction spec).symm)]
    refine forall₂_congr fun far member => ?_
    obtain ⟨farOwner, farType, farName, takes, fits⟩ := starts.exists_far regular.toSound member
    rw [fits]
    constructor
    · exact hasExit.feeds takes
    · intro feeds
      refine .inl (hasExit.mates takes ?_ feeds)
      rintro rfl
      exact foreign far member takes.owns
  unfold spliceExec
  rw [Pass.succeeds_findPin_bind_iff regular hasEntry,
    Pass.succeeds_findPin_bind_iff regular hasExit]
  constructor
  · intro succeeds
    obtain ⟨_, middle, moving, _⟩ := succeeds_bind_iff.mp succeeds
    exact movable.mp ⟨_, middle, moving⟩
  · intro typed
    refine (movable.mpr typed).bind fun _ middle moving => ?_
    have moved := Edit.transferLinks_footprint regular (Pass.yields_edit moving)
    exact ((Pass.succeeds_link_iff _ _).mpr (.inl ((starts.mono moved.extended).mates
      (hasEntry.mono moved.extended) apart (PinType.feeds_self _ _)))).bind fun _ _ _ =>
        succeeds_pure _

theorem succeeds_write_iff {owner : NodeId} {exec : PinId}
    (serves : access.Serves field before.graph) (isValue : field.pinType.IsValue)
    (direction : field.direction = .input) (carried : access.isEventOutput = false)
    (given : access.exec = some exec)
    (starts : before.graph.HasPin owner ⟨.output, .exec, name⟩ exec) :
    Succeeds (access.expand field) before ↔ ¬ field.Clashes ∧ before.graph.TypedAt exec := by
  rw [expand_eq_prepare direction, given, ← succeeds_prepare_iff serves direction carried]
  have sound := serves.sound
  have onward {writer : NodeId} {middle : PassState}
      (prepared : Yields (access.prepare field) before writer middle) :
      Succeeds (spliceExec (some exec) writer) middle ↔ before.graph.TypedAt exec := by
    obtain ⟨made, prepares⟩ := prepares_prepare serves.regular prepared
    have new := prepares.writes.spawned.added
    have unreached : ¬ access.Reaches before.graph exec := fun reached =>
      prepares.spares isValue reached starts.execOutput
    have hierarchy := (Pass.Composed.prepare access field).hierarchy_eq prepared
    have awaits : before.graph.Awaits exec middle.graph :=
      ⟨prepares.regular, prepares.extended, hierarchy, prepares.links starts.lt_size unreached⟩
    rw [← awaits.typedAt_iff sound]
    refine succeeds_spliceExec_iff prepares.regular prepares.unplaced
      (starts.mono prepares.extended) ?_ fun far member owned => ?_
    · rintro rfl
      exact Nat.not_lt_of_le new (starts.owner_lt_size sound)
    · obtain ⟨_, _, _, takes, _⟩ := starts.exists_far sound (awaits.links ▸ member)
      exact Nat.not_lt_of_le (prepares.pinCount_le_of_owns sound owned new) takes.lt_size
  constructor
  · intro succeeds
    obtain ⟨writer, middle, prepared, spliced⟩ := succeeds_bind_iff.mp succeeds
    exact ⟨⟨writer, middle, prepared⟩, (onward prepared).mp spliced⟩
  · rintro ⟨prepares, typed⟩
    exact prepares.bind fun _ _ prepared => (onward prepared).mpr typed

theorem succeeds_fetch (serves : access.Serves field before.graph) :
    Succeeds (access.fetch field) before := by
  refine (Pass.succeeds_spawn_iff.mpr ⟨serves.source,
    PrimitivePins.distinct_getField access.owner field⟩).bind fun getter first spawning => ?_
  have makes := Pass.spawn_makes serves.regular rfl spawning
  obtain ⟨self, hasSelf⟩ := makes.bears _ (PrimitivePins.self_mem_getField access.owner field)
  obtain ⟨value, hasValue⟩ := makes.bears _ (PrimitivePins.value_mem_getField access.owner field)
  refine (Pass.succeeds_findPin_bind_iff makes.regular hasValue).mpr ?_
  exact (succeeds_attachHandle serves makes.regular makes.extended hasSelf
    makes.spawned.added).bind fun _ _ _ => succeeds_pure _

theorem awaits_of_fetch {value : PinId} (serves : access.Serves field before.graph)
    (fetched : Yields (access.fetch field) before value after) :
    before.graph.Awaits access.external after.graph ∧
      ∃ getter, before.graph.nodes.size ≤ getter.index ∧
        after.graph.HasPin getter ⟨.output, field.pinType, field.name⟩ value := by
  obtain ⟨getter, gets⟩ := gets_of_fetch serves.regular serves.stands fetched
  exact ⟨⟨gets.regular, gets.extended, (Pass.Composed.fetch access field).hierarchy_eq fetched,
    gets.awaits⟩, getter, gets.spawned.added, gets.gives⟩

theorem succeeds_readValue (serves : access.Serves field before.graph)
    (direction : field.direction = .output) : Succeeds (access.readValue field) before := by
  rw [readValue_eq_fetch]
  refine (succeeds_fetch serves).bind fun value first fetched => ?_
  obtain ⟨awaits, getter, new, gives⟩ := awaits_of_fetch serves fetched
  exact (succeeds_transferPin serves awaits (direction ▸ gives) new).bind fun _ _ _ =>
    succeeds_pure _

theorem succeeds_readCopy (serves : access.Serves field before.graph)
    (direction : field.direction = .output) : Succeeds (access.readCopy field) before := by
  rw [readCopy_eq_fetch]
  refine (succeeds_fetch serves).bind fun value first fetched => ?_
  obtain ⟨awaits, getter, new, gives⟩ := awaits_of_fetch serves fetched
  refine (Pass.succeeds_spawn_iff.mpr ⟨awaits.extended.exists_node serves.source,
    PrimitivePins.distinct_copy field.pinType⟩).bind fun copy second copying => ?_
  have copies := Pass.spawn_makes awaits.toRegular rfl copying
  obtain ⟨item, hasItem⟩ := copies.bears _ (PrimitivePins.item_mem_copy field.pinType)
  obtain ⟨copied, hasCopied⟩ := copies.bears _ (PrimitivePins.returned_mem_copy field.pinType)
  refine (Pass.succeeds_findPin_bind_iff copies.regular hasItem).mpr ?_
  refine (Pass.succeeds_findPin_bind_iff copies.regular hasCopied).mpr ?_
  have apart : getter ≠ copy := by
    rintro rfl
    exact Nat.not_lt_of_le copies.spawned.added (gives.owner_lt_size awaits.toSound)
  refine ((Pass.succeeds_link_iff _ _).mpr (.inl ((gives.mono copies.extended).mates hasItem apart
    (PinType.feeds_self _ _)))).bind fun _ third linking => ?_
  have linked := Pass.link_footprint copies.regular linking
  have toThird := copies.extended.trans linked.extended
  have newCopy := Nat.le_trans awaits.extended.nodeCount copies.spawned.added
  obtain ⟨externalName, external⟩ := serves.hasExternal
  have untouched : ¬ (access.external = value ∨ access.external = item) := by
    rintro (same | same)
    · exact external.ne_of_new serves.sound awaits.extended gives new same
    · exact external.ne_of_new serves.sound (awaits.extended.trans copies.extended) hasItem
        newCopy same
  have hierarchy := calc third.graph.hierarchy
      _ = second.graph.hierarchy := (Pass.Composed.link _ _).hierarchy_eq linking
      _ = first.graph.hierarchy := (Pass.Composed.spawn _ _ _).hierarchy_eq copying
      _ = before.graph.hierarchy := awaits.hierarchy
  have links := calc third.graph.links access.external
      _ = second.graph.links access.external :=
        linked.links (external.mono (awaits.extended.trans copies.extended)).lt_size untouched
      _ = first.graph.links access.external := congrFun copies.sameLinks _
      _ = before.graph.links access.external := awaits.links
  have awaitsThird : before.graph.Awaits access.external third.graph :=
    ⟨linked.regular, awaits.extended.trans toThird, hierarchy, links⟩
  exact (succeeds_transferPin serves awaitsThird (direction ▸ hasCopied.mono linked.extended)
    newCopy).bind fun _ _ _ => succeeds_pure _

/-- A field that passes its check can be lowered wherever its pins are there and typed, unless a
write of it clashes with the setter or cannot come in where execution goes on. -/
theorem expand_succeeds_iff (checked : field.check = .ok ())
    (carried : access.isEventOutput = false) (serves : access.Serves field before.graph) :
    (∃ next after, (access.expand field).run before = (.ok next, after)) ↔
      (field.direction = .input → ¬ field.Clashes ∧ access.ExecMovable before.graph) := by
  change Succeeds (access.expand field) before ↔ _
  cases direction : field.direction with
  | input =>
      obtain ⟨exec, pin, given, live, output, isExec⟩ := serves.exec direction
      have starts := output ▸ isExec ▸ hasPin_of_pin? live
      have movable : access.ExecMovable before.graph ↔ before.graph.TypedAt exec := by
        rw [serves.sound.typedAt_iff live]
        constructor
        · exact fun movable => movable exec pin given live
        · rintro typed _ _ same found
          cases given.symm.trans same
          cases live.symm.trans found
          exact typed
      rw [succeeds_write_iff serves (Field.isValue_of_check checked) direction carried given starts,
        movable, imp_iff_right rfl]
  | output =>
      refine iff_of_true ?_ nofun
      unfold expand
      rw [direction]
      cases kind : field.kind with
      | scalar => exact succeeds_readValue serves direction
      | struct => exact succeeds_readCopy serves direction
      | array => exact succeeds_readCopy serves direction
      | delegate =>
          exact (Field.not_delegate_output (Field.check_eq_ok_iff.mp checked) direction kind).elim

end FieldAccess

/-! A host that gets the value of one field from elsewhere. -/

namespace SingleWrite

def graph : Graph where
  name := "SingleWrite"
  parentClass := none
  nodes := #[
    ⟨⟨0⟩, .primitive "host", [⟨0⟩], none⟩,
    ⟨⟨1⟩, .primitive "dial", [⟨1⟩], none⟩,
    ⟨⟨2⟩, .primitive "leg", [⟨2⟩], none⟩,
    ⟨⟨3⟩, .primitive "start", [⟨3⟩], none⟩]
  pins := #[
    some ⟨⟨0⟩, ⟨0⟩, "value", .input, .float, none, none, [⟨1⟩]⟩,
    some ⟨⟨1⟩, ⟨1⟩, "value", .output, .float, none, none, [⟨0⟩]⟩,
    some ⟨⟨2⟩, ⟨2⟩, "leg", .output, .object "Leg", none, none, []⟩,
    some ⟨⟨3⟩, ⟨3⟩, "then", .output, .exec, none, none, []⟩]
  hierarchy := .empty
  undo := none

def before : PassState := .start (.empty "Rig") .standard graph

def access : FieldAccess := ⟨"Leg", ⟨0⟩, ⟨0⟩, ⟨2⟩, false, some ⟨3⟩⟩

theorem serves (name : String) : access.Serves (.ofType name .float .input) before.graph where
  wellFormed := ⟨rfl, by decide, by decide, by decide⟩
  external := ⟨_, rfl, rfl, rfl, rfl, by decide⟩
  handle := ⟨_, rfl, by decide, rfl, rfl⟩
  exec := fun _ => ⟨_, _, rfl, rfl, rfl, rfl⟩

theorem execMovable : access.ExecMovable before.graph := by
  rintro _ _ ⟨⟩ ⟨⟩
  simp

/-- The height is written.  A field is not, if it is called what triggers the setter is called. -/
theorem writes_height_only :
    (∃ next after, (access.expand (.ofType "height" .float .input)).run before =
      (.ok next, after)) ∧
    ¬ ∃ next after, (access.expand (.ofType "execute" .float .input)).run before =
      (.ok next, after) := by
  constructor
  · exact (FieldAccess.expand_succeeds_iff rfl rfl (serves "height")).mpr fun _ =>
      ⟨by decide, execMovable⟩
  · intro written
    exact ((FieldAccess.expand_succeeds_iff rfl rfl (serves "execute")).mp written rfl).1
      (by decide)

/-- The check of a field does not see to it that the field can be lowered. -/
theorem not_always_lowered : ¬ ∀ (access : FieldAccess) (field : Field) (before : PassState),
    field.check = .ok () → access.isEventOutput = false → access.Serves field before.graph →
      ∃ next after, (access.expand field).run before = (.ok next, after) := by
  intro lowered
  have written := lowered access (.ofType "execute" .float .input) before rfl rfl (serves _)
  have starts : before.graph.HasPin ⟨3⟩ ⟨.output, .exec, "then"⟩ ⟨3⟩ := ⟨_, rfl, rfl, rfl⟩
  exact ((FieldAccess.succeeds_write_iff (serves _) ⟨nofun, nofun⟩ rfl rfl rfl starts).mp
    written).1 (by decide)

end SingleWrite

end RigLowering
