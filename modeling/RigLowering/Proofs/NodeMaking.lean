import RigLowering.Proofs.Footprint
import RigLowering.Proofs.PinLaying

namespace RigLowering

namespace PrimitivePins

theorem distinct_call_iff {function : FunctionSignature} :
    PinSpec.Distinct (call function true) ↔ (function.parameters.map (·.name)).Nodup := by
  simp only [PinSpec.Distinct, call, if_true, List.nil_append, List.pairwise_append,
    List.pairwise_map, List.Nodup]
  constructor
  · rintro ⟨distinct, _⟩
    exact distinct.imp fun apart same => apart ⟨trivial, same.symm⟩
  · intro named
    refine ⟨named.imp fun different same => different same.2.symm, ?_, ?_⟩
    · cases function.returnType <;> simp
    · cases function.returnType <;> simp

theorem distinct_cast (target : String) : PinSpec.Distinct (cast target true) := by
  have different : PinName.castResult target ≠ PinName.castSuccess := by
    intro same
    have := congrArg String.toList same
    simp [PinName.castResult, PinName.castSuccess] at this
  simp [PinSpec.Distinct, cast, different.symm]

theorem distinct_event (signature : String) : PinSpec.Distinct (event signature) := by
  simp [PinSpec.Distinct, event, PinName.continuation, PinName.outputDelegate]

/-- The two pins are never confused, as one is an input and the other an output. -/
theorem distinct_getField (owner : String) (field : Field) :
    PinSpec.Distinct (getField owner field) := by
  simp [PinSpec.Distinct, getField]

theorem distinct_copy (pinType : PinType) : PinSpec.Distinct (copy pinType) := by
  simp [PinSpec.Distinct, copy]

end PrimitivePins

namespace Graph

/-- The node is the last one, with just the pins that it was asked for, and all else is as it
was. -/
structure Adds (node : NodeId) (specs : List PinSpec) (before after : Graph) : Prop where
  new : node = ⟨before.nodes.size⟩
  carries : after.Carries node specs
  keeps : ∀ {id}, id.index < before.nodes.size → after.node? id = before.node? id
  face : ∀ {id face}, before.face? id = some face → after.face? id = some face
  hierarchy : after.hierarchy = before.hierarchy

variable {before after : Graph} {node other : NodeId} {specs : List PinSpec}

theorem Carries.lt_size (carries : before.Carries node specs) :
    node.index < before.nodes.size := by
  obtain ⟨data, found, _⟩ := carries
  exact lt_size_of_node? found

theorem Adds.hasPin {spec : PinSpec} {id : PinId} (adds : Adds node specs before after)
    (hasPin : before.HasPin other spec id) : after.HasPin other spec id := by
  obtain ⟨face, found, rest⟩ := hasPin
  exact ⟨face, adds.face found, rest⟩

theorem carries_withNode (graph : Graph) (kind : NodeKind) (source : NodeId) :
    (graph.withNode kind source).Carries ⟨graph.nodes.size⟩ [] := by
  refine ⟨⟨⟨graph.nodes.size⟩, kind, [], some source⟩, ?_, .nil⟩
  rw [node?_withNode, if_pos rfl]

section HasPin

variable {graph : Graph} {outputType inputType : PinType} {name inputName : String}
  {output input : PinId}

theorem HasPin.mates (hasOutput : graph.HasPin node ⟨.output, outputType, name⟩ output)
    (hasInput : graph.HasPin other ⟨.input, inputType, inputName⟩ input) (apart : node ≠ other)
    (feeds : outputType.feeds graph.hierarchy inputType) : graph.Mates output input := by
  obtain ⟨face, found, rfl, spec⟩ := hasOutput
  obtain ⟨far, farFound, rfl, farSpec⟩ := hasInput
  refine ⟨face, far, found, farFound, congrArg PinSpec.direction spec,
    congrArg PinSpec.direction farSpec, apart, ?_⟩
  rw [show face.pinType = outputType from congrArg PinSpec.pinType spec,
    show far.pinType = inputType from congrArg PinSpec.pinType farSpec]
  exact feeds

theorem HasPin.feeds (hasOutput : graph.HasPin node ⟨.output, outputType, name⟩ output)
    (hasInput : graph.HasPin other ⟨.input, inputType, inputName⟩ input)
    (linkable : graph.Linkable output input) : outputType.feeds graph.hierarchy inputType := by
  obtain ⟨face, found, _, spec⟩ := hasOutput
  obtain ⟨far, farFound, _, farSpec⟩ := hasInput
  rcases linkable with ⟨first, second, firstFound, secondFound, toward, _, _, fits⟩ |
    ⟨first, second, firstFound, secondFound, toward, _, _, _⟩
  · cases found.symm.trans firstFound
    cases farFound.symm.trans secondFound
    rw [show face.pinType = outputType from congrArg PinSpec.pinType spec,
      show far.pinType = inputType from congrArg PinSpec.pinType farSpec] at fits
    exact fits
  · cases farFound.symm.trans firstFound
    cases toward.symm.trans (congrArg PinSpec.direction farSpec)

end HasPin

end Graph

namespace Edit

open RigLowering.Graph

variable {graph before middle after : Graph} {kind : NodeKind} {source node : NodeId}
  {specs : List PinSpec}

theorem yields_spawnNode_eq (made : Yields (spawnNode kind source) before node middle) :
    node = ⟨before.nodes.size⟩ ∧ middle = before.withNode kind source := by
  unfold Yields at made
  rcases spawnNode_cases kind source before with ⟨_, failed⟩ | grown
  · cases failed.symm.trans made
  · cases grown.symm.trans made
    exact ⟨rfl, rfl⟩

theorem succeeds_spawnNode_iff :
    Succeeds (spawnNode kind source) graph ↔ ∃ data, graph.node? source = some data := by
  constructor
  · rintro ⟨_, _, made⟩
    obtain ⟨data, _, read, _⟩ := yields_bind_iff.mp made
    exact ⟨data, (yields_node_iff.mp read).2⟩
  · rintro ⟨data, found⟩
    exact ⟨_, _, spawnNode_eq_ok found⟩

theorem spawnNode_adds (made : Yields (spawnNode kind source) before node middle)
    (laid : Yields (layPins node specs) middle () after) : Adds node specs before after := by
  have hierarchy := ((Composed.layPins node specs).keeps
    (kept_hierarchy before.hierarchy)).holds_after laid
      (((Composed.spawnNode kind source).keeps (kept_hierarchy _)).holds_after made rfl)
  obtain ⟨rfl, rfl⟩ := yields_spawnNode_eq made
  obtain ⟨_, _, others, faces, _⟩ := layPins_frame laid
  refine ⟨rfl, layPins_carries (before.carries_withNode kind source) laid, ?_, ?_, hierarchy⟩
  · intro id old
    have other : id ≠ ⟨before.nodes.size⟩ := fun same => Nat.lt_irrefl _ (same ▸ old)
    rw [others id other, node?_withNode, if_neg (Nat.ne_of_lt old)]
  · intro id face found
    exact (faces id (lt_size_of_face? found)).1.trans found

end Edit

namespace Pass

open RigLowering.Graph

variable {before after : PassState} {kind : NodeKind} {source node : NodeId}
  {specs : List PinSpec}

theorem spawn_adds (yielded : Yields (spawn kind specs source) before node after) :
    Adds node specs before.graph after.graph := by
  obtain ⟨middle, made, laid⟩ := yields_spawn_edit yielded
  exact Edit.spawnNode_adds made laid

theorem spawnEvent_adds {signature name : String}
    (yielded : Yields (spawnEvent source signature name) before node after) :
    Adds node (PrimitivePins.event signature) before.graph after.graph := by
  obtain ⟨functionName, middle, made, laid⟩ := yields_spawnEvent_edit yielded
  exact Edit.spawnNode_adds made laid

theorem succeeds_spawnNode_iff :
    Succeeds (spawnNode kind source) before ↔ ∃ data, before.graph.node? source = some data := by
  constructor
  · rintro ⟨_, _, spawned⟩
    exact Edit.succeeds_spawnNode_iff.mp ⟨_, _, yields_spawnNode_edit spawned⟩
  · intro found
    exact (succeeds_edit_iff.mpr (Edit.succeeds_spawnNode_iff.mpr found)).bind fun _ _ _ =>
      succeeds_pure _

theorem succeeds_layPins_iff (spawned : Yields (spawnNode kind source) before node after) :
    Succeeds (edit (.layPins node specs)) after ↔ PinSpec.Distinct specs := by
  obtain ⟨rfl, same⟩ := Edit.yields_spawnNode_eq (yields_spawnNode_edit spawned)
  rw [succeeds_edit_iff, same]
  exact Edit.succeeds_layPins_iff (carries_withNode _ kind source) .nil

/-- Neither what the graph is like nor the kind of the node is a reason not to make it. -/
theorem succeeds_spawn_iff :
    Succeeds (spawn kind specs source) before ↔
      (∃ data, before.graph.node? source = some data) ∧ PinSpec.Distinct specs := by
  constructor
  · intro succeeds
    obtain ⟨node, middle, spawned, afterSpawn⟩ := succeeds_bind_iff.mp succeeds
    obtain ⟨_, _, laid, _⟩ := succeeds_bind_iff.mp afterSpawn
    exact ⟨succeeds_spawnNode_iff.mp ⟨node, middle, spawned⟩,
      (succeeds_layPins_iff spawned).mp ⟨_, _, laid⟩⟩
  · rintro ⟨found, distinct⟩
    exact (succeeds_spawnNode_iff.mpr found).bind fun _ _ spawned =>
      ((succeeds_layPins_iff spawned).mpr distinct).bind fun _ _ _ => succeeds_pure _

theorem succeeds_spawnEvent_iff {signature name : String} :
    Succeeds (spawnEvent source signature name) before ↔
      ∃ data, before.graph.node? source = some data := by
  have reserved : Yields (reserveName name) before _ _ := rfl
  constructor
  · rintro ⟨node, after, yielded⟩
    obtain ⟨_, _, made, _⟩ := yields_spawnEvent_edit yielded
    exact Edit.succeeds_spawnNode_iff.mp ⟨_, _, made⟩
  · intro found
    have spawning : Succeeds (spawnEventNode signature name source) before :=
      succeeds_bind_iff.mpr ⟨_, _, reserved, succeeds_spawnNode_iff.mpr found⟩
    refine spawning.bind fun node middle made => ?_
    obtain ⟨_, _, _, spawned⟩ := yields_bind_iff.mp made
    exact ((succeeds_layPins_iff spawned).mpr (PrimitivePins.distinct_event _)).bind
      fun _ _ _ => succeeds_pure _

theorem succeeds_findPin_bind_iff {α : Type} {next : PinId → Pass α} {spec : PinSpec} {id : PinId}
    (regular : before.graph.Regular) (hasPin : before.graph.HasPin node spec id) :
    Succeeds (findPin node spec.name spec.direction >>= next) before ↔
      Succeeds (next id) before := by
  have searched : Yields (findPin node spec.name spec.direction) before id before :=
    yields_query_iff.mpr ⟨rfl, findPin_of_hasPin regular hasPin⟩
  rw [succeeds_bind_iff]
  constructor
  · rintro ⟨_, _, found, succeeds⟩
    cases searched.symm.trans found
    exact succeeds
  · exact fun succeeds => ⟨id, before, searched, succeeds⟩

end Pass

end RigLowering
