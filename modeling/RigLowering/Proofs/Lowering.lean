import RigLowering.Proofs.Authoring
import RigLowering.Proofs.EvaluatorRerouting
import RigLowering.Proofs.Unspoilt

namespace RigLowering

namespace PinSpec

/-- No two of the pins share direction and name. -/
abbrev Distinct (specs : List PinSpec) : Prop :=
  specs.Pairwise fun first second =>
    ¬ (second.direction = first.direction ∧ second.name = first.name)

end PinSpec

namespace Graph

/-- A pin of the node that is made as `spec` says. -/
def HasPin (graph : Graph) (node : NodeId) (spec : PinSpec) (id : PinId) : Prop :=
  ∃ face, graph.face? id = some face ∧ face.owner = node ∧ face.spec = spec

/-- An output of an added node that gives a value of the type. -/
def Gives (base graph : Graph) (pinType : PinType) (id : PinId) : Prop :=
  ∃ face, graph.face? id = some face ∧ base.nodes.size ≤ face.owner.index ∧
    face.direction = .output ∧ face.pinType = pinType

/-- An output of an added node from which execution does not go on yet. -/
def Idle (base graph : Graph) (id : PinId) : Prop :=
  Gives base graph .exec id ∧ graph.links id = []

/-- An idle output by its name. -/
def Exit (base graph : Graph) (node : NodeId) (name : String) : Prop :=
  ∃ id, graph.HasPin node ⟨.output, .exec, name⟩ id ∧ Idle base graph id

/-- A graph on the way of expanding `source`, from `base` on.  What the evaluator is still linked
to are pins of nodes that were there before. -/
structure Lowering (base : Graph) (source : NodeId) (graph : Graph) : Prop
    extends Regular graph, Typed graph where
  extended : base.Extends graph
  hierarchy : graph.hierarchy = base.hierarchy
  began : source.index < base.nodes.size
  own : ∀ {id face}, graph.face? id = some face → face.owner = source →
    base.face? id = some face
  secluded : ∀ {id far face}, graph.Owns source id → far ∈ graph.links id →
    graph.face? far = some face → face.owner.index < base.nodes.size

/-- A step on that way. -/
structure Advances (base : Graph) (source : NodeId) (before after : Graph) : Prop where
  lowering : Lowering base source after
  extended : before.Extends after

/-- A step that leaves idle outputs idle. -/
structure Bypasses (base : Graph) (source : NodeId) (before after : Graph) : Prop
    extends Advances base source before after where
  idle : ∀ {id}, Idle base before id → Idle base after id

/-- A node that has been made in `earlier`, with its pins. -/
structure Furnished (base : Graph) (source : NodeId) (earlier graph : Graph) (node : NodeId)
    (specs : List PinSpec) : Prop where
  began : Lowering base source earlier
  extended : earlier.Extends graph
  new : earlier.nodes.size ≤ node.index
  bears : ∀ spec ∈ specs, ∃ id, graph.HasPin node spec id

section Lowering

variable {base earlier before middle after graph later : Graph} {source node : NodeId}
  {pinType : PinType} {id : PinId} {specs : List PinSpec}

theorem HasPin.mono {spec : PinSpec} (hasPin : graph.HasPin node spec id)
    (extension : graph.Extends later) : later.HasPin node spec id := by
  obtain ⟨face, found, rest⟩ := hasPin
  exact ⟨face, extension.face?_eq found, rest⟩

theorem hasPin_of_pin? {pin : Pin} (live : graph.pin? id = some pin) :
    graph.HasPin pin.owner ⟨pin.direction, pin.pinType, pin.name⟩ id :=
  ⟨pin.face, face?_of_pin? live, rfl, rfl⟩

theorem HasPin.owns {spec : PinSpec} (hasPin : graph.HasPin node spec id) : graph.Owns node id := by
  obtain ⟨face, found, owner, _⟩ := hasPin
  exact ⟨face, found, owner⟩

theorem HasPin.lt_size {spec : PinSpec} (hasPin : graph.HasPin node spec id) :
    id.index < graph.pins.size := by
  obtain ⟨face, found, _⟩ := hasPin
  exact lt_size_of_face? found

theorem HasPin.owner_lt_size {spec : PinSpec} (hasPin : graph.HasPin node spec id)
    (sound : graph.Sound) : node.index < graph.nodes.size := by
  obtain ⟨face, found, rfl, _⟩ := hasPin
  obtain ⟨data, ownerFound, _⟩ := sound.owned found
  exact lt_size_of_node? ownerFound

theorem HasPin.owner_eq {spec otherSpec : PinSpec} {other : NodeId}
    (hasPin : graph.HasPin node spec id) (otherwise : graph.HasPin other otherSpec id) :
    node = other := by
  obtain ⟨face, found, rfl, _⟩ := hasPin
  obtain ⟨_, sameFound, rfl, _⟩ := otherwise
  cases found.symm.trans sameFound
  rfl

theorem HasPin.port {direction : PinDirection} {name : String}
    (hasPin : graph.HasPin node ⟨direction, pinType, name⟩ id) :
    graph.Port node direction name id := by
  obtain ⟨face, found, owner, spec⟩ := hasPin
  exact ⟨face, found, owner, congrArg PinSpec.direction spec, congrArg PinSpec.name spec⟩

theorem HasPin.eq_of_port {direction : PinDirection} {name : String} {other : PinId}
    (regular : graph.Regular) (hasPin : graph.HasPin node ⟨direction, pinType, name⟩ id)
    (port : graph.Port node direction name other) : other = id := by
  obtain ⟨face, found, owner, directed, named⟩ := hasPin.port
  obtain ⟨otherFace, otherFound, otherOwner, otherDirected, otherNamed⟩ := port
  exact regular.namesUnique otherFound found (otherOwner.trans owner.symm)
    (otherNamed.trans named.symm) (otherDirected.trans directed.symm)

theorem Gives.mono (gives : Gives base graph pinType id) (extension : graph.Extends later) :
    Gives base later pinType id := by
  obtain ⟨face, found, rest⟩ := gives
  exact ⟨face, extension.face?_eq found, rest⟩

theorem Gives.unique {otherType : PinType} (gives : Gives base graph pinType id)
    (otherwise : Gives base graph otherType id) : pinType = otherType := by
  obtain ⟨face, found, _, _, rfl⟩ := gives
  obtain ⟨other, otherFound, _, _, rfl⟩ := otherwise
  cases found.symm.trans otherFound
  rfl

theorem HasPin.gives {name : String} (hasPin : graph.HasPin node ⟨.output, pinType, name⟩ id)
    (added : base.nodes.size ≤ node.index) : Gives base graph pinType id := by
  obtain ⟨face, found, rfl, spec⟩ := hasPin
  exact ⟨face, found, added, congrArg PinSpec.direction spec, congrArg PinSpec.pinType spec⟩

/-- An idle output stays idle if it gets no links. -/
theorem Idle.mono (idle : Idle base before id) (extension : before.Extends after)
    (links : ∀ far ∈ after.links id, far ∈ before.links id) : Idle base after id := by
  refine ⟨idle.1.mono extension, List.eq_nil_iff_forall_not_mem.mpr fun far member => ?_⟩
  have old := links far member
  rw [idle.2] at old
  cases old

theorem Bypasses.refl (lowering : Lowering base source graph) :
    Bypasses base source graph graph where
  lowering := lowering
  extended := .refl graph
  idle := fun idle => idle

theorem Advances.trans (first : Advances base source before middle)
    (second : Advances base source middle after) : Advances base source before after where
  lowering := second.lowering
  extended := first.extended.trans second.extended

theorem Bypasses.trans (first : Bypasses base source before middle)
    (second : Bypasses base source middle after) : Bypasses base source before after where
  toAdvances := first.toAdvances.trans second.toAdvances
  idle := fun idle => second.idle (first.idle idle)

theorem Exit.mono {name : String} (exit : Exit base before node name)
    (bypasses : Bypasses base source before after) : Exit base after node name := by
  obtain ⟨id, hasPin, idle⟩ := exit
  exact ⟨id, hasPin.mono bypasses.extended, bypasses.idle idle⟩

theorem Furnished.mono (furnished : Furnished base source earlier graph node specs)
    (extension : graph.Extends later) : Furnished base source earlier later node specs where
  began := furnished.began
  extended := furnished.extended.trans extension
  new := furnished.new
  bears := by
    intro spec listed
    obtain ⟨id, hasPin⟩ := furnished.bears spec listed
    exact ⟨id, hasPin.mono extension⟩

theorem Furnished.added (furnished : Furnished base source earlier graph node specs) :
    base.nodes.size ≤ node.index :=
  Nat.le_trans furnished.began.extended.nodeCount furnished.new

/-- What gave a value before the node was made is no pin of the node. -/
theorem Furnished.not_owns (furnished : Furnished base source earlier graph node specs)
    (gives : Gives base earlier pinType id) : ¬ graph.Owns node id := by
  rintro ⟨face, found, rfl⟩
  obtain ⟨old, oldFound, _⟩ := gives
  rw [furnished.extended.face?_eq oldFound] at found
  cases found
  obtain ⟨owner, ownerFound, _⟩ := furnished.began.owned oldFound
  exact Nat.not_lt_of_le furnished.new (lt_size_of_node? ownerFound)

theorem Lowering.not_owns (lowering : Lowering base source graph)
    (added : base.nodes.size ≤ node.index) (owned : graph.Owns node id) :
    ¬ graph.Owns source id := by
  rintro ⟨face, found, rfl⟩
  obtain ⟨other, otherFound, rfl⟩ := owned
  rw [found] at otherFound
  cases otherFound
  exact Nat.not_lt_of_le added lowering.began

theorem Gives.not_owns (gives : Gives base graph pinType id)
    (lowering : Lowering base source graph) : ¬ graph.Owns source id := by
  obtain ⟨face, found, added, _⟩ := gives
  exact lowering.not_owns added ⟨face, found, rfl⟩

theorem durable_regular : Durable Regular where
  toKept := kept_regular
  checkpoint := Regular.checkpoint
  commit := Regular.commit

theorem durable_hierarchy (hierarchy : ClassHierarchy) : Durable (·.hierarchy = hierarchy) where
  toKept := kept_hierarchy hierarchy
  checkpoint := fun same => same
  commit := fun same => same

/-- Whatever an expansion does goes on its way as long as the evaluator gets neither pins nor
links. -/
theorem Lowering.advances {α : Type} {step : Pass α} {value : α} {before after : PassState}
    (lowering : Lowering base source before.graph) (composed : step.Composed)
    (yielded : Yields step before value after) (extension : before.graph.Extends after.graph)
    (own : ∀ {id face}, after.graph.face? id = some face → face.owner = source →
      before.graph.face? id = some face)
    (links : ∀ {id far}, before.graph.Owns source id → far ∈ after.graph.links id →
      far ∈ before.graph.links id) : Advances base source before.graph after.graph where
  lowering := {
    toRegular := (durable_regular.pass composed).holds_after yielded lowering.toRegular
    fits := ((durable_typed.pass composed).holds_after yielded lowering.toTyped).fits
    extended := lowering.extended.trans extension
    hierarchy :=
      ((durable_hierarchy base.hierarchy).pass composed).holds_after yielded lowering.hierarchy
    began := lowering.began
    own := fun found owner => lowering.own (own found owner) owner
    secluded := by
      rintro id far farFace ⟨face, found, owner⟩ member farFound
      have owned : before.graph.Owns source id := ⟨face, own found owner, owner⟩
      have memberBefore := links owned member
      obtain ⟨_, farBefore, _, farBeforeFound, _⟩ := lowering.joinable memberBefore
      rw [extension.face?_eq farBeforeFound] at farFound
      cases farFound
      exact lowering.secluded owned memberBefore farBeforeFound }
  extended := extension

end Lowering

end Graph

namespace Edit

open RigLowering.Graph

variable {before after : Graph}

theorem layPin_hasPin {node : NodeId} {spec : PinSpec} {id : PinId}
    (laid : Yields (layPin node spec) before id after) : after.HasPin node spec id := by
  obtain ⟨rfl, _, frame, _⟩ := layPin_effect laid
  refine ⟨⟨⟨before.pins.size⟩, node, spec.name, spec.direction, spec.pinType⟩, ?_, rfl, rfl⟩
  rw [frame.face, face?_withPin, if_pos rfl]

theorem layPins_bears {base : Graph} {source node : NodeId} {specs : List PinSpec}
    (new : base.nodes.size ≤ node.index) (regular : before.Regular)
    (laid : Yields (layPins node specs) before () after) :
    ∀ spec ∈ specs, ∃ id, after.HasPin node spec id := by
  unfold layPins at laid
  induction specs generalizing before with
  | nil => simp
  | cons spec rest ih =>
      obtain ⟨_, middle, first, others⟩ := yields_bind_iff.mp laid
      obtain ⟨id, firstLaid⟩ := yields_discard_iff.mp first
      have middleRegular := (Composed.layPin node spec).keeps_regular.holds_after firstLaid regular
      have rests : Undisturbed base source middle after := yields_layPins new middleRegular others
      intro other listed
      rcases List.mem_cons.mp listed with rfl | later
      · exact ⟨id, (layPin_hasPin firstLaid).mono rests.extended⟩
      · exact ih middleRegular others other later

theorem spawnNode_keeps_links {links : PinId → List PinId} (kind : NodeKind) (source : NodeId) :
    Keeps (·.links = links) (spawnNode kind source) := by
  intro graph same
  rcases spawnNode_cases kind source graph with ⟨_, failed⟩ | spawned
  · rw [failed]
    exact same
  · rw [spawned]
    exact same

theorem yields_layPins_links {node : NodeId} {specs : List PinSpec}
    (laid : Yields (layPins node specs) before () after) : after.links = before.links := by
  unfold layPins at laid
  induction specs generalizing before with
  | nil =>
      obtain ⟨_, rfl⟩ := yields_pure_iff.mp laid
      rfl
  | cons spec rest ih =>
      obtain ⟨_, middle, first, others⟩ := yields_bind_iff.mp laid
      obtain ⟨id, firstLaid⟩ := yields_discard_iff.mp first
      obtain ⟨_, _, _, links⟩ := layPin_effect firstLaid
      rw [ih others]
      funext other
      exact (links other).trans (links_withPin before node _ _ _ other)

end Edit

namespace Pass

open RigLowering.Graph

variable {base : Graph} {source : NodeId} {before : PassState}

theorem spawnNode_keeps_links {links : PinId → List PinId} (kind : NodeKind) (source : NodeId) :
    Keeps (·.graph.links = links) (spawnNode kind source) := by
  have made : Keeps (·.graph.links = links) (edit (Edit.spawnNode kind source)) :=
    fun state same => Edit.spawnNode_keeps_links kind source state.graph same
  exact made.bind fun _ => Keeps.bind (fun _ same => same) fun _ => keeps_pure _

/-- A node is furnished that has just been made, by a step that has changed no links. -/
private theorem furnished_of_laid {kind : NodeKind} {specs : List PinSpec} {node : NodeId}
    {after : PassState} {step : Pass NodeId} (lowering : Lowering base source before.graph)
    (composed : step.Composed) (yielded : Yields step before node after)
    (undisturbed : Undisturbed before.graph source before.graph after.graph)
    (spawned : Spawned before.graph after.graph source kind node)
    (bears : ∀ spec ∈ specs, ∃ id, after.graph.HasPin node spec id)
    (links : after.graph.links = before.graph.links) :
    Bypasses base source before.graph after.graph ∧
      Furnished base source before.graph after.graph node specs ∧
        ∀ name, ⟨.output, .exec, name⟩ ∈ specs → Exit base after.graph node name := by
  have advances : Advances base source before.graph after.graph := by
    refine lowering.advances composed yielded undisturbed.extended ?_ ?_
    · intro id face found owner
      rcases Nat.lt_or_ge id.index before.graph.pins.size with old | new
      · rwa [undisturbed.extended.face old] at found
      · have late := undisturbed.pin found new
        rw [owner] at late
        exact (Nat.not_lt_of_le late
          (Nat.lt_of_lt_of_le lowering.began lowering.extended.nodeCount)).elim
    · intro id far _ member
      rwa [links] at member
  have furnished : Furnished base source before.graph after.graph node specs :=
    ⟨lowering, undisturbed.extended, spawned.added, bears⟩
  refine ⟨⟨advances, fun idle => idle.mono undisturbed.extended fun far member => ?_⟩, furnished,
    ?_⟩
  · rwa [links] at member
  · intro name listed
    obtain ⟨id, hasPin⟩ := bears _ listed
    refine ⟨id, hasPin, hasPin.gives furnished.added, ?_⟩
    rw [links]
    cases member : before.graph.links id with
    | nil => rfl
    | cons far rest =>
        exfalso
        obtain ⟨old, oldFound⟩ := face?_isSome_of_mem_links (member ▸ List.mem_cons_self)
        obtain ⟨face, found, rfl, _⟩ := hasPin
        rw [undisturbed.extended.face?_eq oldFound] at found
        cases found
        obtain ⟨owner, ownerFound, _⟩ := lowering.owned oldFound
        exact Nat.not_lt_of_le spawned.added (lt_size_of_node? ownerFound)

theorem unspoilt_spawn {kind : NodeKind} {pins : List PinSpec}
    (lowering : Lowering base source before.graph) (primitive : kind.settings? = none) :
    Unspoilt (spawn kind pins source) before fun node after =>
      Bypasses base source before.graph after.graph ∧
        Furnished base source before.graph after.graph node pins ∧
        Spawned before.graph after.graph source kind node ∧
          ∀ name, ⟨.output, .exec, name⟩ ∈ pins → Exit base after.graph node name := by
  refine (sturdy_spawn kind pins source).unspoilt fun {node after} yielded => ?_
  have regular := lowering.toRegular
  obtain ⟨undisturbed, spawned⟩ := yields_spawn primitive regular (.refl before.graph) yielded
  obtain ⟨_, middle, made, laying⟩ := yields_bind_iff.mp yielded
  obtain ⟨⟨⟩, _, laid, returned⟩ := yields_bind_iff.mp laying
  obtain ⟨rfl, rfl⟩ := yields_pure_iff.mp returned
  have middleRegular := (durable_regular.pass (.spawnNode kind source)).holds_after made regular
  have sameMiddle := (spawnNode_keeps_links kind source).holds_after made rfl
  have sameLast := Edit.yields_layPins_links (yields_edit laid)
  obtain ⟨bypasses, furnished, exits⟩ := furnished_of_laid lowering (.spawn kind pins source)
    yielded undisturbed spawned
    (@Edit.layPins_bears _ _ before.graph source _ _ spawned.added middleRegular (yields_edit laid))
    (sameLast.trans sameMiddle)
  exact ⟨bypasses, furnished, spawned, exits⟩

theorem unspoilt_spawnEvent {signature name : String}
    (lowering : Lowering base source before.graph) :
    Unspoilt (spawnEvent source signature name) before fun node after =>
      Bypasses base source before.graph after.graph ∧
        Furnished base source before.graph after.graph node (PrimitivePins.event signature) ∧
          ∀ name, ⟨.output, .exec, name⟩ ∈ PrimitivePins.event signature →
            Exit base after.graph node name := by
  refine (sturdy_spawnEvent source signature name).unspoilt fun {node after} yielded => ?_
  have regular := lowering.toRegular
  obtain ⟨undisturbed, functionName, spawned⟩ :=
    yields_spawnEvent regular (.refl before.graph) yielded
  obtain ⟨_, middle, made, laying⟩ := yields_bind_iff.mp yielded
  obtain ⟨reserved, named, naming, spawning⟩ := yields_bind_iff.mp made
  have sameNamed := Apart.yields_graph (fun _ _ _ => rfl) naming
  obtain ⟨⟨⟩, _, laid, returned⟩ := yields_bind_iff.mp laying
  obtain ⟨rfl, rfl⟩ := yields_pure_iff.mp returned
  have middleRegular := (durable_regular.pass (.spawnNode _ source)).holds_after spawning
    (sameNamed ▸ regular)
  have sameMiddle := (spawnNode_keeps_links _ source).holds_after spawning
    (congrArg links sameNamed)
  have sameLast := Edit.yields_layPins_links (yields_edit laid)
  exact furnished_of_laid lowering (.spawnEvent source signature name) yielded undisturbed spawned
    (@Edit.layPins_bears _ _ before.graph source _ _ spawned.added middleRegular (yields_edit laid))
    (sameLast.trans sameMiddle)

variable {earlier : Graph} {node : NodeId} {specs : List PinSpec}

theorem yields_query_iff {α : Type} {answer : Graph → Except Error α} {after : PassState}
    {value : α} :
    Yields (Pass.query answer) before value after ↔
      after = before ∧ answer before.graph = .ok value := by
  constructor
  · intro yielded
    exact ⟨(Prod.ext_iff.mp yielded).2.symm, (yields_query yielded).2⟩
  · rintro ⟨rfl, answered⟩
    exact Prod.ext answered rfl

theorem unspoilt_findPin {direction : PinDirection} {pinType : PinType} {name : String}
    (regular : before.graph.Regular)
    (furnished : Furnished base source earlier before.graph node specs)
    (listed : ⟨direction, pinType, name⟩ ∈ specs) :
    Unspoilt (findPin node name direction) before fun id after =>
      after = before ∧ before.graph.HasPin node ⟨direction, pinType, name⟩ id := by
  refine (sturdy_query fun graph => graph.firm_findPin node name _).unspoilt fun yielded => ?_
  obtain ⟨same, searched⟩ := yields_query_iff.mp yielded
  obtain ⟨id, hasPin⟩ := furnished.bears _ listed
  obtain rfl := hasPin.eq_of_port regular (findPin_eq_ok regular.toSound searched)
  exact ⟨same, hasPin⟩

theorem unspoilt_link {output input : PinId} {outputType inputType : PinType} {name : String}
    (lowering : Lowering base source before.graph)
    (furnished : Furnished base source earlier before.graph node specs)
    (gives : Gives base earlier outputType output)
    (takes : before.graph.HasPin node ⟨.input, inputType, name⟩ input)
    (feeds : outputType.feeds base.hierarchy inputType) :
    Unspoilt (edit (.link output input)) before fun _ after =>
      Advances base source before.graph after.graph ∧
        ∀ {id}, id ≠ output → Idle base before.graph id → Idle base after.graph id := by
  have givesNow := gives.mono furnished.extended
  have away := furnished.not_owns gives
  have outputForeign := givesNow.not_owns lowering
  have inputForeign : ¬ before.graph.Owns source input := by
    obtain ⟨face, found, owner, _⟩ := takes
    exact lowering.not_owns furnished.added ⟨face, found, owner⟩
  obtain ⟨face, found, _, isOutput, rfl⟩ := givesNow
  obtain ⟨far, farFound, rfl, spec⟩ := takes
  have isInput : far.direction = .input := congrArg PinSpec.direction spec
  have farType : far.pinType = inputType := congrArg PinSpec.pinType spec
  have mates : before.graph.Mates output input := by
    refine ⟨face, far, found, farFound, isOutput, isInput, ?_, ?_⟩
    · exact fun owners => away ⟨face, found, owners⟩
    · rw [lowering.hierarchy, farType]
      exact feeds
  have linkable : Unspoilt (Edit.link output input) before.graph fun _ _ => True :=
    (Edit.succeeds_link_iff.mpr (.inl mates)).unspoilt fun _ => trivial
  refine unspoilt_edit linkable fun {_ after} yielded => ?_
  obtain ⟨frame, _, links⟩ := Edit.yields_link lowering.toSound (yields_edit yielded)
  refine ⟨lowering.advances (.link _ _) yielded frame.extended
    (fun found _ => frame.face _ ▸ found) ?_, ?_⟩
  · intro id far owned member
    rcases links.mp member with old | ⟨rfl, _⟩ | ⟨rfl, _⟩
    · exact old
    · exact (outputForeign owned).elim
    · exact (inputForeign owned).elim
  · intro id other idle
    refine idle.mono frame.extended fun far member => ?_
    rcases links.mp member with old | ⟨rfl, _⟩ | ⟨rfl, _⟩
    · exact old
    · exact (other rfl).elim
    · obtain ⟨exitFace, exitFound, _, exitOutput, _⟩ := idle.1
      cases farFound.symm.trans exitFound
      cases isInput.symm.trans exitOutput

/-- A link of a value is no matter to where execution goes on. -/
theorem unspoilt_link_value {output input : PinId} {outputType inputType : PinType} {name : String}
    (lowering : Lowering base source before.graph)
    (furnished : Furnished base source earlier before.graph node specs)
    (gives : Gives base earlier outputType output) (value : outputType ≠ .exec)
    (takes : before.graph.HasPin node ⟨.input, inputType, name⟩ input)
    (feeds : outputType.feeds base.hierarchy inputType) :
    Unspoilt (edit (.link output input)) before fun _ after =>
      Bypasses base source before.graph after.graph := by
  refine (unspoilt_link lowering furnished gives takes feeds).mono fun _ after linked => ?_
  obtain ⟨advances, others⟩ := linked
  refine ⟨advances, fun {id} idle => others ?_ idle⟩
  rintro rfl
  exact value ((gives.mono furnished.extended).unique idle.1)

/-- The links of the evaluator can all be made at an added pin of the same type. -/
theorem unspoilt_transferPin {origin dest : PinId} {face destFace : PinFace}
    (lowering : Lowering base source before.graph) (found : before.graph.face? origin = some face)
    (owner : face.owner = source) (value : face.pinType ≠ .exec)
    (destFound : before.graph.face? dest = some destFace)
    (added : base.nodes.size ≤ destFace.owner.index)
    (direction : destFace.direction = face.direction) (pinType : destFace.pinType = face.pinType) :
    Unspoilt (transferPin origin dest) before fun _ after =>
      Bypasses base source before.graph after.graph := by
  have owned : before.graph.Owns source origin := ⟨face, found, owner⟩
  have destForeign : ¬ before.graph.Owns source dest :=
    lowering.not_owns added ⟨destFace, destFound, rfl⟩
  have different : origin ≠ dest := by
    rintro rfl
    exact destForeign owned
  have linkable : ∀ far ∈ before.graph.links origin, before.graph.Linkable dest far := by
    intro far member
    obtain ⟨_, farFace, _, farFound, _⟩ := lowering.joinable member
    have farOld := lowering.secluded owned member farFound
    refine (lowering.toTyped.typedAt origin).linkable lowering.toSound member found farFound
      destFound direction pinType ?_
    intro same
    rw [same] at farOld
    exact Nat.not_lt_of_le added farOld
  have movable : Unspoilt (Edit.transferLinks origin dest) before.graph fun _ _ => True :=
    ((Edit.succeeds_transferLinks_iff different found destFound direction).mpr linkable).unspoilt
      fun _ => trivial
  refine unspoilt_edit (movable.bind_sturdy fun _ => (Edit.sturdy_pin origin).bind fun pin => ?_)
    fun {_ after} yielded => ?_
  · split
    · exact Edit.sturdy_modifyPin _ _
    · exact sturdy_pure _
  obtain ⟨frame, _, _, links⟩ := yields_transferPin lowering.toRegular different yielded
  refine ⟨lowering.advances (.transferPin origin dest) yielded frame.extended
    (fun found _ => frame.face _ ▸ found) ?_, ?_⟩
  · intro id far idOwned member
    obtain ⟨_, _, old | ⟨rfl, _⟩ | ⟨_, back⟩⟩ := links.mp member
    · exact old
    · exact (destForeign idOwned).elim
    · exact (lowering.not_owns_of_mem_links back owned idOwned).elim
  · intro id idle
    refine idle.mono frame.extended fun far member => ?_
    obtain ⟨_, _, old | ⟨rfl, _⟩ | ⟨_, back⟩⟩ := links.mp member
    · exact old
    · obtain ⟨exitFace, exitFound, _, _, exec⟩ := idle.1
      cases destFound.symm.trans exitFound
      exact (value (pinType.symm.trans exec)).elim
    · have toOrigin := lowering.mem_links_comm.mp back
      rw [idle.2] at toOrigin
      cases toOrigin

/-- There is nothing to move away from an idle output. -/
theorem unspoilt_transferLinks_of_idle {exec dest : PinId} {name : String}
    (lowering : Lowering base source before.graph) (idle : Idle base before.graph exec)
    (hasPin : before.graph.HasPin node ⟨.output, .exec, name⟩ dest) (different : exec ≠ dest) :
    Unspoilt (edit (.transferLinks exec dest)) before fun _ after =>
      Bypasses base source before.graph after.graph := by
  obtain ⟨⟨face, found, _, isOutput, _⟩, linkless⟩ := idle
  obtain ⟨destFace, destFound, _, spec⟩ := hasPin
  have direction : destFace.direction = face.direction :=
    (congrArg PinSpec.direction spec).trans isOutput.symm
  have movable : Unspoilt (Edit.transferLinks exec dest) before.graph fun _ _ => True := by
    refine ((Edit.succeeds_transferLinks_iff different found destFound direction).mpr
      ?_).unspoilt fun _ => trivial
    rw [linkless]
    intro far member
    cases member
  refine unspoilt_edit movable fun {_ after} yielded => ?_
  obtain ⟨frame, _, links⟩ :=
    Edit.yields_transferLinks lowering.toSound different (yields_edit yielded)
  have links {id far : PinId} (member : far ∈ after.graph.links id) :
      far ∈ before.graph.links id := by
    obtain ⟨_, _, old | ⟨_, moved⟩ | ⟨_, moved⟩⟩ := links.mp member
    · exact old
    · rw [linkless] at moved
      cases moved
    · rw [linkless] at moved
      cases moved
  exact ⟨lowering.advances (.edit (.transferLinks exec dest)) yielded frame.extended
    (fun found _ => frame.face _ ▸ found) (fun _ => links),
    fun idle => idle.mono frame.extended fun _ => links⟩

theorem unspoilt_changeLiterals {pin : PinId} {value object : Pin → Option String}
    (lowering : Lowering base source before.graph) :
    Unspoilt (edit (.modifyPin pin (·.setLiterals value object))) before fun _ after =>
      Bypasses base source before.graph after.graph := by
  refine (sturdy_edit (Edit.sturdy_modifyPin pin _)).unspoilt fun {_ after} yielded => ?_
  have changed := yields_edit yielded
  unfold Yields at changed
  rcases Edit.changeLiterals_cases pin value object before.graph with
    ⟨_, failed⟩ | ⟨_, done, frame, links⟩
  · exact (nomatch failed.symm.trans changed)
  · cases done.symm.trans changed
    exact ⟨lowering.advances (.edit (.changeLiterals pin value object)) yielded frame.extended
      (fun found _ => frame.face _ ▸ found) (fun _ member => links _ ▸ member),
      fun idle => idle.mono frame.extended fun _ member => links _ ▸ member⟩

theorem unspoilt_takeIndex :
    Unspoilt takeIndex before fun _ after => after.graph = before.graph :=
  sturdy_takeIndex.unspoilt fun yielded => Apart.yields_graph (fun _ _ _ => rfl) yielded

end Pass

end RigLowering
