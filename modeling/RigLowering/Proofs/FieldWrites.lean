import RigLowering.Proofs.FieldLowering
import RigLowering.Proofs.Stretch

namespace RigLowering

namespace PinType

/-- The type is one of values, and of values of one category. -/
def IsValue (pinType : PinType) : Prop :=
  pinType.category ≠ .exec ∧ pinType.category ≠ .wildcard

theorem isValue_anyObject : anyObject.IsValue :=
  ⟨nofun, nofun⟩

theorem isValue_object (className : String) : (object className).IsValue :=
  ⟨nofun, nofun⟩

end PinType

namespace Field

theorem isValue_of_check {field : Field} (checked : field.check = .ok ()) :
    field.pinType.IsValue := by
  obtain ⟨_, _, value, _⟩ := fault?_eq_none_iff.mp (check_eq_ok_iff.mp checked)
  exact not_or.mp value

/-- The kind of node that writes a value to the field. -/
def writeKind (owner : String) (field : Field) : NodeKind :=
  match field.kind with
  | .delegate => .bindField owner field.name
  | _ => .setField owner field.name

theorem settings?_writeKind (owner : String) (field : Field) :
    (field.writeKind owner).settings? = none := by
  unfold writeKind
  cases field.kind <;> rfl

end Field

namespace Graph

/-- The pins of a node by which execution is to come and go are not linked yet. -/
structure Unplaced (graph : Graph) (node : NodeId) : Prop where
  entry : ∃ id, graph.HasPin node ⟨.input, .exec, PinName.execute⟩ id ∧ graph.links id = []
  exit : ∃ id, graph.HasPin node ⟨.output, .exec, PinName.continuation⟩ id ∧ graph.links id = []

/-- An output that execution goes on from. -/
def ExecOutput (graph : Graph) (id : PinId) : Prop :=
  ∃ face, graph.face? id = some face ∧ face.direction = .output ∧ face.pinType.isExec

/-- The input has a single link, which comes from `output`. -/
def Fed (graph : Graph) (node : NodeId) (name : String) (output : PinId) : Prop :=
  ∃ id, graph.Port node .input name id ∧ graph.links id = [output]

section Pins

variable {before middle after graph later : Graph} {source node : NodeId} {kind : NodeKind}
  {specs : List PinSpec} {id other : PinId}

theorem Port.ne {direction otherDirection : PinDirection} {name otherName : String}
    (port : graph.Port node direction name id)
    (otherPort : graph.Port node otherDirection otherName other) (different : name ≠ otherName) :
    id ≠ other := by
  rintro rfl
  obtain ⟨face, found, _, _, rfl⟩ := port
  obtain ⟨same, sameFound, _, _, rfl⟩ := otherPort
  cases found.symm.trans sameFound
  exact different rfl

theorem Port.owns {direction : PinDirection} {name : String}
    (port : graph.Port node direction name id) : graph.Owns node id := by
  obtain ⟨face, found, owner, _⟩ := port
  exact ⟨face, found, owner⟩

theorem HasPin.ne {first second : PinSpec} (hasFirst : graph.HasPin node first id)
    (hasSecond : graph.HasPin node second other) (different : first ≠ second) : id ≠ other := by
  rintro rfl
  obtain ⟨face, found, _, rfl⟩ := hasFirst
  obtain ⟨same, sameFound, _, rfl⟩ := hasSecond
  cases found.symm.trans sameFound
  exact different rfl

theorem HasPin.added {base : Graph} {spec : PinSpec} (hasPin : graph.HasPin node spec id)
    (new : base.nodes.size ≤ node.index) : Added base graph id := by
  obtain ⟨face, found, rfl, _⟩ := hasPin
  exact ⟨face, found, new⟩

/-- Links of another input are no matter. -/
theorem Unplaced.keep {pinType : PinType} {name : String} (unplaced : before.Unplaced node)
    (extension : before.Extends after)
    (takes : before.HasPin node ⟨.input, pinType, name⟩ id) (different : name ≠ PinName.execute)
    (others : ∀ {other}, before.Owns node other → other ≠ id → before.links other = [] →
      after.links other = []) : after.Unplaced node := by
  obtain ⟨⟨execute, hasEntry, entry⟩, continuation, hasExit, exit⟩ := unplaced
  have apart : execute ≠ id :=
    hasEntry.ne takes fun same => different (congrArg PinSpec.name same).symm
  have opposite : continuation ≠ id := hasExit.ne takes nofun
  exact ⟨⟨execute, hasEntry.mono extension, others hasEntry.owns apart entry⟩,
    continuation, hasExit.mono extension, others hasExit.owns opposite exit⟩

theorem Fed.kept {name : String} {output : PinId} (fed : before.Fed node name output)
    (extension : before.Extends after)
    (links : ∀ {id face}, before.face? id = some face → face.owner = node →
      face.direction = .input → before.links id = [output] → after.links id = [output]) :
    after.Fed node name output := by
  obtain ⟨id, ⟨face, found, owner, input, named⟩, only⟩ := fed
  exact ⟨id, ⟨face, extension.face?_eq found, owner, input, named⟩, links found owner input only⟩

theorem HasPin.execOutput {name : String} (hasPin : graph.HasPin node ⟨.output, .exec, name⟩ id) :
    graph.ExecOutput id := by
  obtain ⟨face, found, _, spec⟩ := hasPin
  have typed : face.pinType = .exec := congrArg PinSpec.pinType spec
  exact ⟨face, found, congrArg PinSpec.direction spec, typed ▸ rfl⟩

theorem ExecOutput.mono (exec : before.ExecOutput id) (extension : before.Extends after) :
    after.ExecOutput id := by
  obtain ⟨face, found, rest⟩ := exec
  exact ⟨face, extension.face?_eq found, rest⟩

theorem ExecOutput.of_mem_links {far : PinId} (exec : graph.ExecOutput far)
    (sound : graph.Sound) (member : far ∈ graph.links id) :
    ∃ face, graph.face? id = some face ∧ face.direction = .input := by
  obtain ⟨face, farFace, found, farFound, direction, _⟩ := sound.joinable member
  obtain ⟨_, same, output, _⟩ := exec
  cases farFound.symm.trans same
  have opposed := PinDirection.eq_opposite_of_ne direction.symm
  rw [output] at opposed
  exact ⟨face, found, opposed⟩

theorem ExecOutput.lt_size (exec : graph.ExecOutput id) : id.index < graph.pins.size := by
  obtain ⟨face, found, _⟩ := exec
  exact lt_size_of_face? found

/-- Execution does not go on to where values of a category are taken. -/
theorem Compatible.not_execOutput {face : PinFace} (compatible : graph.Compatible id other)
    (found : graph.face? id = some face) (value : face.pinType.IsValue) :
    ¬ graph.ExecOutput other := by
  rintro ⟨far, farFound, _, exec⟩
  have category : far.pinType.category = .exec := of_decide_eq_true exec
  rcases compatible face far found farFound with wild | wild | same
  · exact value.2 wild
  · rw [category] at wild
    cases wild
  · exact value.1 (same.trans category)

end Pins

end Graph

namespace Field

open RigLowering.Graph

/-- The nodes that a write to the field of the handle is made of, and the one of them that
writes. -/
inductive WrittenBy (field : Field) (source : NodeId) (owner : String) (handle : PinId)
    (before after : Graph) : List NodeId → NodeId → Prop
  | direct {writer : NodeId} (single : field.kind ≠ .array)
      (spawned : Spawned before after source (field.writeKind owner) writer)
      (self : after.Fed writer PinName.self handle) :
      WrittenBy field source owner handle before after [writer] writer
  | copied {copy writer : NodeId} {copied : PinId} (array : field.kind = .array)
      (copies : Spawned before after source .copy copy)
      (gives : after.Port copy .output PinName.returnValue copied)
      (spawned : Spawned before after source (field.writeKind owner) writer)
      (value : after.Fed writer field.name copied)
      (self : after.Fed writer PinName.self handle) :
      WrittenBy field source owner handle before after [copy, writer] writer

section WrittenBy

variable {field : Field} {source writer : NodeId} {owner : String} {handle : PinId}
  {base start graph later : Graph} {made : List NodeId}

theorem WrittenBy.spawned (written : field.WrittenBy source owner handle start graph made writer) :
    Spawned start graph source (field.writeKind owner) writer := by
  cases written with
  | direct _ spawned _ => exact spawned
  | copied _ _ _ spawned _ _ => exact spawned

/-- A write stays one as long as its nodes are fed as they were. -/
theorem WrittenBy.mono (written : field.WrittenBy source owner handle start graph made writer)
    (extension : graph.Extends later)
    (fed : ∀ {node name output}, start.nodes.size ≤ node.index →
      output = handle ∨ Added start graph output → graph.Fed node name output →
        later.Fed node name output) :
    field.WrittenBy source owner handle start later made writer := by
  have primitive := field.settings?_writeKind owner
  cases written with
  | direct single spawned self =>
      exact .direct single (spawned.mono primitive extension) (fed spawned.added (.inl rfl) self)
  | copied array copies gives spawned value self =>
      exact .copied array (copies.mono rfl extension) (gives.mono extension)
        (spawned.mono primitive extension)
        (fed spawned.added (.inr (copies.port_added gives)) value)
        (fed spawned.added (.inl rfl) self)

theorem WrittenBy.since (written : field.WrittenBy source owner handle start graph made writer)
    (begun : base.Extends start) :
    field.WrittenBy source owner handle base graph made writer := by
  cases written with
  | direct single spawned self => exact .direct single (spawned.since begun) self
  | copied array copies gives spawned value self =>
      exact .copied array (copies.since begun) gives (spawned.since begun) value self

end WrittenBy

end Field

namespace Pass

open RigLowering.Graph

theorem yields_port {node : NodeId} {name : String} {direction : PinDirection} {id : PinId}
    {before after : PassState} (regular : before.graph.Regular)
    (yielded : Yields (findPin node name direction) before id after) :
    before = after ∧ before.graph.Port node direction name id := by
  obtain ⟨same, searched⟩ := yields_query_iff.mp yielded
  exact ⟨same.symm, findPin_eq_ok regular.toSound searched⟩

/-- A node that has just been made takes a value of an earlier one. -/
theorem link_of_makes {source node : NodeId} {kind : NodeKind} {specs : List PinSpec}
    {name : String} {input output : PinId} {start : Graph} {before after : PassState}
    (sound : start.Sound) (makes : Makes source kind specs node start before.graph)
    (takes : before.graph.Port node .input name input) (old : output.index < start.pins.size)
    (yielded : Yields (edit (.link output input)) before () after) :
    Footprint [node] (· = output) (fun _ => False) start after.graph ∧
      before.graph.Extends after.graph ∧ after.graph.Fed node name output ∧
      ∀ {id}, before.graph.Owns node id → id ≠ input →
        after.graph.links id = before.graph.links id := by
  have linked := link_footprint makes.regular yielded
  have new := makes.pinCount_le sound takes.owns
  have taken := (Edit.link_unlinked makes.regular.toSound (yields_edit yielded)
    (makes.unlinked sound takes.owns)).2
  refine ⟨makes.widen.andThen linked ?_ fun _ => id, linked.extended,
    ⟨input, takes.mono linked.extended, taken⟩, ?_⟩
  · rintro id earlier (rfl | rfl)
    · rfl
    · exact (Nat.not_lt_of_le new earlier).elim
  · intro id owned different
    refine Edit.link_elsewhere (yields_edit yielded) ?_ different
    rintro rfl
    exact Nat.not_lt_of_le (makes.pinCount_le sound owned) old

end Pass

namespace FieldAccess

open RigLowering.Graph

/-- The pins whose links a write or read changes where it takes its value and its owner from. -/
def Reaches (access : FieldAccess) (graph : Graph) (id : PinId) : Prop :=
  id = access.external ∨ id ∈ graph.links access.external ∨ id = access.handle

variable {access : FieldAccess} {field : Field} {node : NodeId} {before after : PassState}

/-- Where the value goes to, nothing else of the node gets a link, and execution goes on as it
did. -/
structure Routes (access : FieldAccess) (node : NodeId) (pinType : PinType) (value : PinId)
    (before after : Graph) : Prop where
  footprint : Footprint [] (fun id => access.Reaches before id ∨ id = value) (· = value)
    before after
  spared : ∀ {id}, before.Owns node id → id ≠ value → before.links id = [] → after.links id = []
  apart : pinType.IsValue → ∀ {id}, id ≠ value →
    id = access.external ∨ id ∈ before.links access.external → ¬ before.ExecOutput id

section Routes

variable {pinType : PinType} {name : String} {value : PinId}

theorem routes_of_link (regular : before.graph.Regular)
    (takes : before.graph.HasPin node ⟨.input, pinType, name⟩ value)
    (yielded : Yields (Pass.edit (.link access.external value)) before () after) :
    access.Routes node pinType value before.graph after.graph := by
  obtain ⟨face, found, rfl, spec⟩ := takes
  have input : face.direction = .input := congrArg PinSpec.direction spec
  obtain rfl : face.pinType = pinType := congrArg PinSpec.pinType spec
  obtain ⟨joinable, compatible, _⟩ := Edit.link_effect (Pass.yields_edit yielded)
  obtain ⟨first, second, firstFound, secondFound, direction, owners⟩ := joinable
  cases found.symm.trans secondFound
  refine ⟨?_, ?_, ?_⟩
  · exact (Pass.link_footprint regular yielded).mono (fun _ => Or.imp_left .inl)
      fun _ => False.elim
  · rintro id ⟨own, ownFound, owner⟩ different unlinked
    rw [Edit.link_elsewhere (Pass.yields_edit yielded) ?_ different, unlinked]
    rintro rfl
    cases ownFound.symm.trans firstFound
    exact owners owner.symm
  · rintro isValue id different (rfl | linked) exec
    · exact compatible.symm.not_execOutput found isValue exec
    · obtain ⟨externalFace, externalFound, taken⟩ := exec.of_mem_links regular.toSound linked
      cases externalFound.symm.trans firstFound
      exact direction (input.trans taken.symm)

theorem routes_of_transferPin (regular : before.graph.Regular)
    (takes : before.graph.HasPin node ⟨.input, pinType, name⟩ value)
    (fresh : before.graph.links value = [])
    (yielded : Yields (Pass.transferPin access.external value) before () after) :
    access.Routes node pinType value before.graph after.graph := by
  obtain ⟨face, found, rfl, spec⟩ := takes
  have input : face.direction = .input := congrArg PinSpec.direction spec
  obtain rfl : face.pinType = pinType := congrArg PinSpec.pinType spec
  obtain ⟨moved, lists⟩ := Pass.transferPin_footprint regular yielded
  refine ⟨moved.mono ?_ fun _ => And.left, ?_, ?_⟩
  · rintro id _ (rfl | rfl | linked)
    · exact .inl (.inl rfl)
    · exact .inr rfl
    · exact .inl (.inr (.inl linked))
  · rintro id owned different unlinked
    rcases lists with ⟨_, same⟩ | lists
    · rw [same, unlinked]
    · by_cases origin : id = access.external
      · rw [origin, lists.emptied]
      · rw [lists.elsewhere origin different, unlinked]
        rw [regular.mem_links_comm, unlinked]
        exact List.not_mem_nil
  · rintro isValue id different reached exec
    rcases lists with ⟨same, _⟩ | lists
    · rw [same, fresh] at reached
      exact reached.elim different List.not_mem_nil
    · rcases reached with rfl | linked
      · obtain ⟨externalFace, destFace, externalFound, destFound, direction⟩ := lists.direction
        obtain ⟨_, again, output, _⟩ := exec
        cases externalFound.symm.trans again
        cases found.symm.trans destFound
        cases input.symm.trans (direction.trans output)
      · exact (lists.compatible id linked).not_execOutput found isValue exec

theorem routes_of_routeValue (regular : before.graph.Regular)
    (takes : before.graph.HasPin node ⟨.input, pinType, name⟩ value)
    (fresh : before.graph.links value = [])
    (yielded : Yields (access.routeValue value) before () after) :
    access.Routes node pinType value before.graph after.graph := by
  unfold routeValue at yielded
  split at yielded
  · exact routes_of_link regular takes yielded
  · exact routes_of_transferPin regular takes fresh yielded

end Routes

theorem attachHandle_effect {self : PinId} (regular : before.graph.Regular)
    (takes : before.graph.HasPin node ⟨.input, .object access.owner, PinName.self⟩ self)
    (fresh : before.graph.links self = [])
    (yielded : Yields (access.attachHandle node) before () after) :
    Footprint [] (fun id => id = access.handle ∨ id = self) (fun _ => False)
        before.graph after.graph ∧
      after.graph.links self = [access.handle] ∧
      (∀ {id}, before.graph.Owns node id → id ≠ self →
        after.graph.links id = before.graph.links id) ∧
      ¬ before.graph.ExecOutput access.handle := by
  obtain ⟨found, _, searched, linking⟩ := yields_bind_iff.mp yielded
  obtain ⟨rfl, port⟩ := Pass.yields_port regular searched
  obtain rfl := takes.eq_of_port regular port
  obtain ⟨face, faceFound, rfl, spec⟩ := takes
  have typed : face.pinType = .object access.owner := congrArg PinSpec.pinType spec
  obtain ⟨joinable, compatible, _⟩ := Edit.link_effect (Pass.yields_edit linking)
  refine ⟨Pass.link_footprint regular linking,
    (Edit.link_unlinked regular.toSound (Pass.yields_edit linking) fresh).2, ?_, ?_⟩
  · rintro id ⟨own, ownFound, owner⟩ different
    refine Edit.link_elsewhere (Pass.yields_edit linking) ?_ different
    rintro rfl
    obtain ⟨first, second, firstFound, secondFound, _, owners⟩ := joinable
    cases ownFound.symm.trans firstFound
    cases faceFound.symm.trans secondFound
    exact owners owner.symm
  · exact compatible.symm.not_execOutput faceFound (typed ▸ PinType.isValue_object _)

abbrev Writes (access : FieldAccess) (field : Field) (before after : Graph) :
    List NodeId → NodeId → Prop :=
  field.WrittenBy access.source access.owner access.handle before after

/-- A write that has no place in the order of execution yet. -/
structure Prepares (access : FieldAccess) (field : Field) (made : List NodeId) (writer : NodeId)
    (before after : Graph) : Prop
    extends Footprint made (access.Reaches before) (fun _ => False) before after where
  writes : access.Writes field before after made writer
  unplaced : after.Unplaced writer
  spares : field.pinType.IsValue → ∀ {id}, access.Reaches before id → ¬ before.ExecOutput id

theorem self_mem_writePins (access : FieldAccess) (field : Field) (name : String) :
    ⟨.input, .object access.owner, PinName.self⟩ ∈ access.writePins field name := by
  simp [writePins]

theorem execute_mem_writePins (access : FieldAccess) (field : Field) (name : String) :
    ⟨.input, .exec, PinName.execute⟩ ∈ access.writePins field name := by
  simp [writePins, PrimitivePins.execution]

/-- The value has a pin of its own. -/
theorem name_ne_of_makes {kind : NodeKind} {name : String} {graph later : Graph}
    (makes : Makes access.source kind (access.writePins field name) node graph later) :
    name ≠ PinName.self ∧ name ≠ PinName.execute := by
  have distinct := makes.distinct
  simp [PinSpec.Distinct, writePins, PrimitivePins.execution] at distinct
  exact ⟨distinct.2, distinct.1.2⟩

theorem unplaced_of_makes {kind : NodeKind} {name : String} {graph later : Graph}
    (sound : graph.Sound)
    (makes : Makes access.source kind (access.writePins field name) node graph later) :
    later.Unplaced node := by
  obtain ⟨execute, hasEntry⟩ := makes.bears _ (access.execute_mem_writePins field name)
  obtain ⟨continuation, hasExit⟩ := makes.bears _ (access.continuation_mem_writePins field name)
  exact ⟨⟨execute, hasEntry, makes.unlinked sound hasEntry.owns⟩,
    continuation, hasExit, makes.unlinked sound hasExit.owns⟩

/-- Every write takes its owner last of all. -/
theorem prepares_of_attachHandle {start : Graph} {made : List NodeId} {self : PinId}
    (footprint : Footprint made (access.Reaches start) (fun _ => False) start before.graph)
    (sound : start.Sound) (new : start.nodes.size ≤ node.index)
    (takes : before.graph.HasPin node ⟨.input, .object access.owner, PinName.self⟩ self)
    (fresh : before.graph.links self = []) (unplaced : before.graph.Unplaced node)
    (apart : field.pinType.IsValue → ∀ {id}, start.ExecOutput id →
      ¬ (id = access.external ∨ id ∈ start.links access.external))
    (yielded : Yields (access.attachHandle node) before () after)
    (writes : before.graph.Extends after.graph → after.graph.Fed node PinName.self access.handle →
      (∀ {id}, before.graph.Owns node id → id ≠ self →
        after.graph.links id = before.graph.links id) →
        access.Writes field start after.graph made node) :
    access.Prepares field made node start after.graph := by
  obtain ⟨attached, fed, spared, handleApart⟩ :=
    attachHandle_effect footprint.regular takes fresh yielded
  have selfNew : start.pins.size ≤ self.index := by
    obtain ⟨face, found, rfl, _⟩ := takes
    exact footprint.pinCount_le sound found new
  refine ⟨?_, ?_, ?_, ?_⟩
  · refine footprint.andThen attached ?_ fun _ => id
    rintro id old (rfl | rfl)
    · exact .inr (.inr rfl)
    · exact (Nat.not_lt_of_le selfNew old).elim
  · exact writes attached.extended ⟨self, takes.port.mono attached.extended, fed⟩ spared
  · refine unplaced.keep attached.extended takes (by decide) fun owned different unlinked => ?_
    rw [spared owned different, unlinked]
  · rintro isValue id (rfl | linked | rfl) exec
    · exact apart isValue exec (.inl rfl)
    · exact apart isValue exec (.inr linked)
    · exact handleApart (exec.mono footprint.extended)

/-- A node has been made for the value and has got it. -/
theorem routeValue_of_makes {start : Graph} {kind : NodeKind} {specs : List PinSpec}
    {pinType : PinType} {name : String} {value : PinId} (sound : start.Sound)
    (makes : Makes access.source kind specs node start before.graph)
    (takes : before.graph.HasPin node ⟨.input, pinType, name⟩ value)
    (yielded : Yields (access.routeValue value) before () after) :
    Footprint [node] (access.Reaches start) (fun _ => False) start after.graph ∧
      (∀ {id}, before.graph.Owns node id → id ≠ value → before.graph.links id = [] →
        after.graph.links id = []) ∧
      (pinType.IsValue → ∀ {id}, start.ExecOutput id →
        ¬ (id = access.external ∨ id ∈ start.links access.external)) := by
  have new := makes.pinCount_le sound takes.owns
  obtain ⟨routed, spared, apart⟩ :=
    routes_of_routeValue makes.regular takes (makes.unlinked sound takes.owns) yielded
  refine ⟨makes.widen.andThen routed ?_ ?_, spared, ?_⟩
  · rintro id old (reached | rfl)
    · rwa [Reaches, makes.sameLinks] at reached
    · exact (Nat.not_lt_of_le new old).elim
  · rintro id old rfl
    exact Nat.not_lt_of_le new old
  · intro isValue id exec reached
    refine apart isValue ?_ (by rwa [makes.sameLinks]) (exec.mono makes.extended)
    rintro rfl
    exact Nat.not_lt_of_le new exec.lt_size

/-- By one node. -/
def prepareBy (access : FieldAccess) (field : Field) (kind : NodeKind) (name : String) :
    Pass NodeId := do
  let node ← Pass.spawn kind (access.writePins field name) access.source
  let value ← Pass.findPin node name .input
  access.routeValue value
  access.attachHandle node
  return node

def prepareCopy (access : FieldAccess) (field : Field) : Pass NodeId := do
  let copy ← Pass.spawnCopy access.source field.pinType
  let item ← Pass.findPin copy PinName.item .input
  let copied ← Pass.findPin copy PinName.returnValue .output
  access.routeValue item
  let setter ← Pass.spawnSetField access.source access.owner field
  let value ← Pass.findPin setter field.name .input
  Pass.edit (.link copied value)
  access.attachHandle setter
  return setter

def prepare (access : FieldAccess) (field : Field) : Pass NodeId :=
  match field.kind with
  | .array => access.prepareCopy field
  | .delegate => access.prepareBy field (field.writeKind access.owner) PinName.delegate
  | _ => access.prepareBy field (field.writeKind access.owner) field.name

theorem expand_eq_prepare (direction : field.direction = .input) :
    access.expand field = access.prepare field >>= spliceExec access.exec := by
  unfold expand prepare Field.writeKind
  rw [direction]
  cases field.kind <;>
    simp only [writeValue, writeCopy, writeDelegate, prepareBy, prepareCopy, bind_assoc,
      pure_bind] <;> rfl

section Values

variable {next : Option PinId} {writer : NodeId}

/-- A write by one node. -/
theorem prepares_prepareBy {name : String} (regular : before.graph.Regular)
    (single : field.kind ≠ .array)
    (yielded : Yields (access.prepareBy field (field.writeKind access.owner) name) before writer
      after) :
    ∃ made, access.Prepares field made writer before.graph after.graph := by
  obtain ⟨node, first, spawning, afterSpawn⟩ := yields_bind_iff.mp yielded
  have sound := regular.toSound
  have primitive := field.settings?_writeKind access.owner
  have makes := Pass.spawn_makes regular primitive spawning
  obtain ⟨notSelf, notExecute⟩ := name_ne_of_makes makes
  obtain ⟨self, hasSelf⟩ := makes.bears _ (access.self_mem_writePins field name)
  obtain ⟨value, _, searched, afterSearch⟩ := yields_bind_iff.mp afterSpawn
  obtain ⟨rfl, port⟩ := Pass.yields_port makes.regular searched
  have hasValue := makes.hasPin (.refl _) makes.regular
    (access.value_mem_writePins field name) port
  obtain ⟨_, second, routing, afterRoute⟩ := yields_bind_iff.mp afterSearch
  obtain ⟨footprint, spared, apart⟩ := routeValue_of_makes sound makes hasValue routing
  obtain ⟨_, third, attaching, returned⟩ := yields_bind_iff.mp afterRoute
  obtain ⟨rfl, rfl⟩ := yields_pure_iff.mp returned
  have extended := (routes_of_routeValue makes.regular hasValue
    (makes.unlinked sound hasValue.owns) routing).footprint.extended
  have different : self ≠ value :=
    hasSelf.ne hasValue fun same => notSelf (congrArg PinSpec.name same).symm
  have fresh := spared hasSelf.owns different (makes.unlinked sound hasSelf.owns)
  have unplaced := (unplaced_of_makes sound makes).keep extended hasValue notExecute spared
  refine ⟨[writer], ?_⟩
  exact prepares_of_attachHandle footprint sound makes.spawned.added (hasSelf.mono extended)
    fresh unplaced apart attaching fun extension fed _ =>
      .direct single (makes.spawned.mono primitive (extended.trans extension)) fed

/-- A copy takes the value, and the setter takes it from the copy. -/
theorem prepares_prepareCopy (regular : before.graph.Regular) (array : field.kind = .array)
    (yielded : Yields (access.prepareCopy field) before writer after) :
    ∃ made, access.Prepares field made writer before.graph after.graph := by
  obtain ⟨copy, first, copying, afterCopy⟩ := yields_bind_iff.mp yielded
  have sound := regular.toSound
  have copies := Pass.spawn_makes regular rfl copying
  obtain ⟨item, _, searchedItem, afterItem⟩ := yields_bind_iff.mp afterCopy
  obtain ⟨rfl, itemPort⟩ := Pass.yields_port copies.regular searchedItem
  have hasItem := copies.hasPin (.refl _) copies.regular
    (PrimitivePins.item_mem_copy field.pinType) itemPort
  obtain ⟨copied, _, searchedCopied, afterCopied⟩ := yields_bind_iff.mp afterItem
  obtain ⟨rfl, gives⟩ := Pass.yields_port copies.regular searchedCopied
  obtain ⟨_, second, routing, afterRoute⟩ := yields_bind_iff.mp afterCopied
  obtain ⟨footprint, _, apart⟩ := routeValue_of_makes sound copies hasItem routing
  have toSecond := (routes_of_routeValue copies.regular hasItem
    (copies.unlinked sound hasItem.owns) routing).footprint.extended
  have secondSound := footprint.regular.toSound
  obtain ⟨setter, third, spawning, afterSpawn⟩ := yields_bind_iff.mp afterRoute
  have sets : field.writeKind access.owner = .setField access.owner field.name := by
    rw [Field.writeKind, array]
  have primitive := field.settings?_writeKind access.owner
  have makes : Makes access.source (field.writeKind access.owner)
      (access.writePins field field.name) setter second.graph third.graph := by
    rw [sets]
    exact Pass.spawn_makes footprint.regular rfl spawning
  obtain ⟨notSelf, notExecute⟩ := name_ne_of_makes makes
  obtain ⟨self, hasSelf⟩ := makes.bears _ (access.self_mem_writePins field field.name)
  obtain ⟨value, _, searched, afterSearch⟩ := yields_bind_iff.mp afterSpawn
  obtain ⟨rfl, port⟩ := Pass.yields_port makes.regular searched
  have hasValue := makes.hasPin (.refl _) makes.regular
    (access.value_mem_writePins field field.name) port
  obtain ⟨_, fourth, linking, afterLink⟩ := yields_bind_iff.mp afterSearch
  obtain ⟨_, fifth, attaching, returned⟩ := yields_bind_iff.mp afterLink
  obtain ⟨rfl, rfl⟩ := yields_pure_iff.mp returned
  have copiedOld : copied.index < second.graph.pins.size := by
    obtain ⟨face, found, _⟩ := gives
    exact Nat.lt_of_lt_of_le (lt_size_of_face? found) toSecond.pinCount
  obtain ⟨linked, toFourth, ⟨taker, takerPort, takes⟩, spared⟩ :=
    Pass.link_of_makes secondSound makes port copiedOld linking
  have different : self ≠ value :=
    hasSelf.ne hasValue fun same => notSelf (congrArg PinSpec.name same).symm
  have fresh : fourth.graph.links self = [] := by
    rw [spared hasSelf.owns different, makes.unlinked secondSound hasSelf.owns]
  have unplaced := (unplaced_of_makes secondSound makes).keep toFourth hasValue notExecute
    fun owned apart unlinked => by rw [spared owned apart, unlinked]
  have whole : Footprint [copy, writer] (access.Reaches before.graph) (fun _ => False)
      before.graph fourth.graph := by
    refine footprint.trans linked ?_ fun _ => id
    rintro id old rfl
    obtain ⟨face, found, owner, _⟩ := gives
    exact (Nat.not_lt_of_le (copies.pinCount_le sound ⟨face, found, owner⟩) old).elim
  refine ⟨[copy, writer], ?_⟩
  refine prepares_of_attachHandle whole sound
    (Nat.le_trans footprint.nodeCount_le makes.spawned.added) (hasSelf.mono toFourth)
    fresh unplaced apart attaching fun extension fed others => ?_
  have toFifth := toFourth.trans extension
  have fromSecond := makes.extended.trans toFifth
  have apartFromSelf : taker ≠ self := takerPort.ne (hasSelf.mono toFourth).port notSelf
  refine .copied array (copies.spawned.mono rfl (toSecond.trans fromSecond))
    (gives.mono (toSecond.trans fromSecond)) ?_ ⟨taker, takerPort.mono extension, ?_⟩ fed
  · exact (makes.spawned.mono primitive toFifth).since footprint.extended
  · rw [others takerPort.owns apartFromSelf, takes]

theorem prepares_prepare (regular : before.graph.Regular)
    (yielded : Yields (access.prepare field) before writer after) :
    ∃ made, access.Prepares field made writer before.graph after.graph := by
  unfold prepare at yielded
  split at yielded
  · next array => exact prepares_prepareCopy regular array yielded
  · next delegate => exact prepares_prepareBy regular (by rw [delegate]; decide) yielded
  · next single _ => exact prepares_prepareBy regular single yielded

/-- Writes of all kinds. -/
theorem prepares_expand (regular : before.graph.Regular) (direction : field.direction = .input)
    (yielded : Yields (access.expand field) before next after) :
    ∃ made writer middle, access.Prepares field made writer before.graph middle.graph ∧
      Yields (spliceExec access.exec writer) middle next after := by
  rw [expand_eq_prepare direction] at yielded
  obtain ⟨writer, middle, prepared, splicing⟩ := yields_bind_iff.mp yielded
  obtain ⟨made, prepares⟩ := prepares_prepare regular prepared
  exact ⟨made, writer, middle, prepares, splicing⟩

end Values

end FieldAccess

end RigLowering
