import RigLowering.Proofs.ExpansionRerouting
import RigLowering.Proofs.Retirement

namespace RigLowering

/-- Of the nodes of a write one writes; the others are there for its value. -/
structure Layout where
  call : NodeId
  cast : NodeId
  event : Option NodeId
  writes : List (List NodeId × NodeId)
  evaluation : NodeId
  resultCast : NodeId
  reads : List (List NodeId)

namespace Layout

def nodes (layout : Layout) : List NodeId :=
  [layout.call, layout.cast] ++ layout.event.toList ++ layout.writes.flatMap (·.1) ++
    [layout.evaluation, layout.resultCast] ++ layout.reads.flatten

/-- The nodes that write, in the order of the fields. -/
def writers (layout : Layout) : List NodeId :=
  layout.writes.map (·.2)

end Layout

namespace Target

open RigLowering.Graph

/-- The sub-rig has been allocated, and the event writes the inputs to its fields. -/
structure GathersInto (env : Environment) (target : Target) (base graph : Graph)
    (inputs : List (PinId × Field)) (call cast : NodeId) (writes : List (List NodeId × NodeId))
    (gathered : GatheredInputs) : Prop where
  allocated : target.Allocated env base graph call cast gathered.subRig.index gathered.subRig.pin
  event : ∃ functionName, Spawned base graph target.node
    (.event env.runtime.gatherSignature functionName) gathered.event
  delegate : graph.HasPin gathered.event
    ⟨.output, .delegate env.runtime.gatherSignature, PinName.outputDelegate⟩ gathered.delegate
  written : List.Forall₂ (fun input write => input.2.WrittenBy target.node target.rigType
    gathered.subRig.pin base graph write.1 write.2) inputs writes
  runs : graph.Runs gathered.event (writes.map (·.2))

/-- Nothing is made for inputs where there are none. -/
inductive GathersAs (env : Environment) (target : Target) (base graph : Graph)
    (inputs : List (PinId × Field)) : Option GatheredInputs → Prop
  | nothing (empty : inputs = []) (same : graph = base) :
      GathersAs env target base graph inputs none
  | event {call cast : NodeId} {writes : List (List NodeId × NodeId)} {gathered : GatheredInputs}
      (filled : inputs ≠ [])
      (stretch : Stretch base (inputs.map (·.1)) []
        ([call, cast] ++ [gathered.event] ++ writes.flatMap (·.1)) base graph)
      (gathers : target.GathersInto env base graph inputs call cast writes gathered) :
      GathersAs env target base graph inputs (some gathered)

variable {env : Environment} {target : Target} {base graph : Graph} {before after : PassState}
  {direction : PinDirection}

theorem parameters_listed {data : Node} (regular : base.Regular)
    (found : base.node? target.node = some data) :
    (∀ parameter ∈ target.parametersAmong env direction base data.pins,
      base.Owns target.node parameter.1 ∧ parameter.2.direction = direction ∧
        ∃ face, base.face? parameter.1 = some face ∧ face.direction = direction) ∧
      ((target.parametersAmong env direction base data.pins).map (·.1)).Nodup := by
  refine ⟨fun parameter member => ?_, nodup_parameters regular found⟩
  obtain ⟨pin, live, owner, toward, hasField⟩ :=
    (mem_parameters_iff regular.toSound found).mp member
  have faceFound := face?_of_pin? live
  exact ⟨⟨_, faceFound, owner⟩, hasField.direction_eq.trans toward, _, faceFound, toward⟩

theorem fst_parameters_listed {data : Node} (regular : base.Regular)
    (found : base.node? target.node = some data) :
    ∀ pin ∈ (target.parametersAmong env direction base data.pins).map (·.1),
      base.Owns target.node pin ∧
        ∃ face, base.face? pin = some face ∧ face.direction = direction := by
  intro pin member
  obtain ⟨parameter, listedHere, rfl⟩ := List.mem_map.mp member
  obtain ⟨owned, _, directed⟩ := (parameters_listed regular found).1 parameter listedHere
  exact ⟨owned, directed⟩

theorem gathers_of_expandInputs {gathered : Option GatheredInputs}
    (regular : before.graph.Regular)
    (yielded : Yields (target.expandInputs env) before gathered after) :
    ∃ data, before.graph.node? target.node = some data ∧
      target.GathersAs env before.graph after.graph
        (target.parametersAmong env .input before.graph data.pins) gathered := by
  obtain ⟨parameters, first, reading, afterRead⟩ := yields_bind_iff.mp yielded
  obtain ⟨sameFirst, data, found, rfl⟩ := yields_parameters reading
  refine ⟨data, found, ?_⟩
  obtain ⟨listed, nodup⟩ :=
    @parameters_listed env target before.graph .input data regular found
  generalize target.parametersAmong env .input before.graph data.pins = inputs at *
  split at afterRead
  · next empty =>
      obtain ⟨rfl, rfl⟩ := yields_pure_iff.mp afterRead
      exact .nothing (List.isEmpty_iff.mp empty) sameFirst
  · next filled =>
      obtain ⟨subRig, second, allocating, afterAllocate⟩ := yields_bind_iff.mp afterRead
      rw [← sameFirst] at regular listed ⊢
      obtain ⟨call, cast, allocating, allocated⟩ :=
        allocated_of_allocate regular.toSound (.refl _) regular allocating
      obtain ⟨event, third, spawning, afterEvent⟩ := yields_bind_iff.mp afterAllocate
      obtain ⟨functionName, makes⟩ := Pass.spawnEvent_makes allocating.regular spawning
      have opened := allocating.trans (.of_makes makes regular.toSound allocating.extended)
        (by simp)
      have eventSpawned := makes.spawned.since allocating.extended
      obtain ⟨exec, _, foundExec, afterExec⟩ := yields_bind_iff.mp afterEvent
      obtain ⟨rfl, execPort⟩ := Pass.yields_port makes.regular foundExec
      have hasExec : third.graph.HasPin event ⟨.output, .exec, PinName.continuation⟩ exec :=
        makes.hasPin (.refl _) makes.regular (by simp [PrimitivePins.event]) execPort
      have idle : Idle first.graph third.graph exec :=
        ⟨hasExec.gives eventSpawned.added,
          makes.unlinked allocating.regular.toSound hasExec.owns⟩
      have pending : Pending first.graph target.node [] (inputs.map (·.1)) third.graph := by
        refine ⟨⟨_, opened⟩, by simp, nodup, ?_, by simp⟩
        intro pin member
        obtain ⟨parameter, listedHere, rfl⟩ := List.mem_map.mp member
        exact (listed parameter listedHere).1
      obtain ⟨_, fourth, writing, afterWrite⟩ := yields_bind_iff.mp afterExec
      obtain ⟨_, folded⟩ := yields_discard_iff.mp writing
      have handle := (allocated.gives.mono makes.extended)
      obtain ⟨writes, last, stretch, written, sequence, unlinked⟩ := census_of_writes pending
        handle idle (fun parameter member => (listed parameter member).2.1) folded
      obtain ⟨delegate, _, foundDelegate, returned⟩ := yields_bind_iff.mp afterWrite
      obtain ⟨rfl, delegatePort⟩ := Pass.yields_port stretch.regular foundDelegate
      obtain ⟨rfl, rfl⟩ := yields_pure_iff.mp returned
      refine @GathersAs.event env target first.graph after.graph inputs call cast writes
        ⟨subRig, event, delegate⟩ (by simpa using filled) ?_ ?_
      · refine opened.trans stretch fun pin member old => ?_
        obtain rfl := List.mem_singleton.mp member
        exact (Nat.not_lt_of_le (idle.pinCount_le regular.toSound opened.extended) old).elim
      · have widened : Stretch first.graph [] [] [event] second.graph third.graph :=
          .of_makes makes regular.toSound allocating.extended
        have retains := stretch.retains (by simpa using idle.execOutput)
        exact ⟨(allocated.retained (widened.retains (by simp))).retained retains,
          ⟨functionName, eventSpawned.mono rfl stretch.extended⟩,
          (makes.hasPin stretch.extended stretch.regular (by simp [PrimitivePins.event])
            delegatePort).mono stretch.extended, written,
          exec, last, hasExec.mono stretch.extended, sequence, unlinked⟩

/-- The sub-rig output is no parameter, whatever it is linked to. -/
theorem parameterAt_congr {id : PinId} {face : PinFace} (found : base.face? id = some face)
    (sameFace : graph.face? id = base.face? id)
    (same : ¬ (direction = .output ∧ face.name = PinName.rig) → graph.pin? id = base.pin? id) :
    target.parameterAt env direction graph id = target.parameterAt env direction base id := by
  by_cases rig : direction = .output ∧ face.name = PinName.rig
  · obtain ⟨rfl, named⟩ := rig
    have none_of {other : Graph} (otherFound : other.face? id = some face) :
        target.parameterAt env .output other id = none := by
      obtain ⟨pin, live, rfl, _⟩ := exists_pin?_of_face? otherFound
      have apart : ¬ target.isParameter .output pin := by
        intro counts
        obtain ⟨_, _, notRig⟩ := isParameter_iff.mp counts
        exact notRig ⟨rfl, named⟩
      simp only [parameterAt, live, if_neg apart]
    rw [none_of found, none_of (sameFace.trans found)]
  · simp only [parameterAt, same rig]

theorem parametersAmong_congr {data : Node} (regular : base.Regular)
    (found : base.node? target.node = some data) (extension : base.Extends graph)
    (same : ∀ {id face}, base.face? id = some face → face.owner = target.node →
      face.direction = direction → ¬ (direction = .output ∧ face.name = PinName.rig) →
        graph.pin? id = base.pin? id) :
    target.parametersAmong env direction graph data.pins =
      target.parametersAmong env direction base data.pins := by
  have faces {id : PinId} (listed : id ∈ data.pins) : graph.face? id = base.face? id := by
    obtain ⟨face, faceFound, _⟩ := regular.listed found listed
    rw [extension.face?_eq faceFound, faceFound]
  unfold parametersAmong
  have toward : (data.pins.filter fun id => (graph.face? id).any (·.direction = direction)) =
      data.pins.filter fun id => (base.face? id).any (·.direction = direction) :=
    List.filter_congr fun id listed => by rw [faces listed]
  rw [toward]
  apply List.filterMap_congr
  intro id member
  obtain ⟨listed, directed⟩ := List.mem_filter.mp member
  obtain ⟨face, faceFound, owner⟩ := regular.listed found listed
  rw [faceFound] at directed
  exact parameterAt_congr faceFound (faces listed)
    (same faceFound owner (by simpa using directed))

/-- The links of the sub-rig output come to the handle. -/
theorem stretch_of_transferPin {moved externals : List PinId} {rig handle : PinId}
    {pinType : PinType} (pending : Pending base target.node moved (rig :: externals) before.graph)
    (output : ∃ face, base.face? rig = some face ∧ face.direction = .output)
    (gives : Gives base before.graph pinType handle) (value : pinType.isExec = false)
    (yielded : Yields (Pass.transferPin rig handle) before () after) :
    Stretch base [rig] [] [] before.graph after.graph := by
  obtain ⟨moves, _⟩ := Pass.transferPin_footprint pending.regular yielded
  have old := (pending.owned rig (by simp)).lt_size
  refine ⟨moves.mono ?_ ?_, pending.sound, pending.extends_base⟩
  · rintro id _ (rfl | rfl | member)
    · exact .inl ⟨old, .inl (by simp)⟩
    · exact .of_gives gives pending.sound pending.extends_base value
    · rw [pending.links (by simp)] at member
      obtain ⟨_, far, _, found, _⟩ := pending.sound.joinable member
      exact .inl ⟨lt_size_of_face? found, .inr ⟨rig, by simp, member⟩⟩
  · rintro id _ ⟨_, face, found, input⟩
    obtain ⟨same, sameFound, direction⟩ := output
    rw [pending.extends_base.face?_eq sameFound] at found
    cases found
    cases input.symm.trans direction

/-- Only inputs and the sub-rig output of the evaluator have given their links away. -/
def Spent (target : Target) (base : Graph) (moved : List PinId) : Prop :=
  ∀ pin ∈ moved, ∃ face, base.face? pin = some face ∧ face.owner = target.node ∧
    (face.direction = .output → face.name = PinName.rig)

section Spent

variable {moved : List PinId} {made : List NodeId} {data : Node}

theorem Spent.owned (spent : target.Spent base moved) {pin : PinId} (member : pin ∈ moved) :
    base.Owns target.node pin := by
  obtain ⟨face, found, owner, _⟩ := spent pin member
  exact ⟨face, found, owner⟩

theorem Spent.not_mem (spent : target.Spent base moved) {pin : PinId} {face : PinFace}
    (found : base.face? pin = some face) (output : face.direction = .output)
    (notRig : face.name ≠ PinName.rig) : pin ∉ moved := by
  intro member
  obtain ⟨same, sameFound, _, rig⟩ := spent pin member
  cases found.symm.trans sameFound
  exact notRig (rig output)

/-- The outputs other than that of the sub-rig are untouched. -/
theorem Spent.pin?_eq (spent : target.Spent base moved) (regular : base.Regular)
    (stretch : Stretch base moved [] made base graph) {id : PinId} {face : PinFace}
    (found : base.face? id = some face) (owner : face.owner = target.node)
    (output : face.direction = .output) (notRig : face.name ≠ PinName.rig) :
    graph.pin? id = base.pin? id := by
  have old := lt_size_of_face? found
  refine pin?_congr (stretch.face old)
    (stretch.links_base old (spent.not_mem found output notRig) ?_)
    (stretch.literals old fun relit => relit)
  exact fun origin member linked => regular.not_owns_of_mem_links linked (spent.owned member)
    ⟨face, found, owner⟩

theorem Spent.parametersAmong_eq (spent : target.Spent base moved) (regular : base.Regular)
    (stretch : Stretch base moved [] made base graph)
    (found : base.node? target.node = some data) :
    target.parametersAmong env .output graph data.pins =
      target.parametersAmong env .output base data.pins := by
  refine parametersAmong_congr regular found stretch.extended ?_
  exact fun faceFound owner output notRig => spent.pin?_eq regular stretch faceFound owner output
    fun rig => notRig ⟨rfl, rig⟩

theorem Spent.pending (spent : target.Spent base moved) (regular : base.Regular)
    (stretch : Stretch base moved [] made base graph)
    (found : base.node? target.node = some data) :
    Pending base target.node moved
      ((target.parametersAmong env .output base data.pins).map (·.1)) graph := by
  refine ⟨⟨_, stretch⟩, fun pin member => spent.owned member,
    (parameters_listed regular found).2,
    fun pin member => (fst_parameters_listed regular found pin member).1, ?_⟩
  intro pin member
  obtain ⟨parameter, listedHere, rfl⟩ := List.mem_map.mp member
  obtain ⟨live, liveFound, _, output, hasField⟩ :=
    (mem_parameters_iff regular.toSound found).mp listedHere
  exact spent.not_mem (face?_of_pin? liveFound) output fun rig => hasField.not_rig ⟨output, rig⟩

end Spent

/-- There is a sub-rig, and on the way to it only inputs have given their links away. -/
structure Provided (env : Environment) (target : Target) (base graph : Graph) (subRig : SubRig)
    (delegate : Option PinId) (moved : List PinId) (made : List NodeId) : Prop where
  stretch : Stretch base moved [] made base graph
  gone : ∀ pin ∈ moved, base.Owns target.node pin ∧
    ∃ face, base.face? pin = some face ∧ face.direction = .input
  handle : Gives base graph (.object target.rigType) subRig.pin
  delegates : ∀ id, delegate = some id →
    Gives base graph (.delegate env.runtime.gatherSignature) id

/-- The sub-rig output hands its links over, and the sub-rig is evaluated.  The other outputs are
still what they were at first. -/
theorem evaluated_of_transfer {moved : List PinId} {made : List NodeId} {data : Node}
    {subRig : SubRig} {delegate : Option PinId} {rig result : PinId}
    {middle later last : PassState} (regular : base.Regular)
    (provided : target.Provided env base before.graph subRig delegate moved made)
    (found : base.node? target.node = some data)
    (foundRig : Yields (Pass.findPin target.node PinName.rig .output) before rig middle)
    (transferring : Yields (Pass.transferPin rig subRig.pin) middle () later)
    (evaluating : Yields (target.evaluate env subRig delegate) later result last) :
    base.Port target.node .output PinName.rig rig ∧ target.Spent base (moved ++ [rig]) ∧
      Stretch base [rig] [] [] before.graph later.graph ∧
      ∃ call cast, Stretch base [] [] [call, cast] later.graph last.graph ∧
        Stretch base (moved ++ [rig]) [] (made ++ [call, cast]) base last.graph ∧
        target.Evaluated env base last.graph delegate call cast subRig.pin result := by
  obtain ⟨stretch, gone, handle, delegates⟩ := provided
  obtain ⟨rfl, port⟩ := Pass.yields_port stretch.regular foundRig
  obtain ⟨rigFace, laterFound, rigOwner, rigDirection, rigName⟩ := port
  have rigFound := stretch.face?_of_owner laterFound (rigOwner ▸ lt_size_of_node? found)
  have spent : target.Spent base (moved ++ [rig]) := by
    intro pin member
    rcases List.mem_append.mp member with member | member
    · obtain ⟨⟨_, faceFound, owner⟩, face, same, input⟩ := gone pin member
      cases faceFound.symm.trans same
      exact ⟨_, same, owner, fun output => by cases input.symm.trans output⟩
    · rw [List.mem_singleton.mp member]
      exact ⟨rigFace, rigFound, rigOwner, fun _ => rigName⟩
  have rigPending : Pending base target.node moved [rig] before.graph := by
    refine ⟨⟨made, stretch⟩, fun pin member => (gone pin member).1, by simp, ?_, ?_⟩
    · simpa using ⟨rigFace, rigFound, rigOwner⟩
    · intro pin member movedHere
      rw [List.mem_singleton.mp member] at movedHere
      obtain ⟨_, face, same, input⟩ := gone rig movedHere
      cases rigFound.symm.trans same
      cases input.symm.trans rigDirection
  have transferred := stretch_of_transferPin rigPending ⟨rigFace, rigFound, rigDirection⟩ handle
    rfl transferring
  have advanced := rigPending.advance transferred (by simp)
  obtain ⟨call, cast, calling, evaluated⟩ := evaluated_of_evaluate regular.toSound
    advanced.extends_base advanced.regular (handle.mono transferred.extended)
    (fun id given => (delegates id given).mono transferred.extended) evaluating
  refine ⟨⟨rigFace, rigFound, rigOwner, rigDirection, rigName⟩, spent, transferred, call, cast,
    calling, ?_, evaluated⟩
  simpa using (stretch.trans transferred (by simp)).trans calling (by simp)

theorem evaluated_of_readFrom {moved : List PinId} {made : List NodeId} {data : Node}
    {subRig : SubRig} {delegate : Option PinId} {index : UInt32} (regular : base.Regular)
    (provided : target.Provided env base before.graph subRig delegate moved made)
    (found : base.node? target.node = some data)
    (yielded : Yields (do
      let rig ← Pass.findPin target.node PinName.rig .output
      Pass.transferPin rig subRig.pin
      let result ← target.evaluate env subRig delegate
      target.readOutputs result (← target.parameters env .output)
      return subRig.index) before index after) :
    let outputs := target.parametersAmong env .output base data.pins
    ∃ rig call cast result reads, index = subRig.index ∧
      base.Port target.node .output PinName.rig rig ∧
      Stretch base (rig :: outputs.map (·.1)) [] ([call, cast] ++ reads.flatten) before.graph
        after.graph ∧
      target.Evaluated env base after.graph delegate call cast subRig.pin result ∧
      List.Forall₂ (fun output read => output.2.ReadBy target.node target.rigType result base
        after.graph read) outputs reads := by
  intro outputs
  obtain ⟨rig, _, foundRig, afterRig⟩ := yields_bind_iff.mp yielded
  obtain ⟨_, first, transferring, afterTransfer⟩ := yields_bind_iff.mp afterRig
  obtain ⟨result, second, evaluating, afterEvaluate⟩ := yields_bind_iff.mp afterTransfer
  obtain ⟨port, spent, transferred, call, cast, calling, beforeReads, evaluated⟩ :=
    evaluated_of_transfer regular provided found foundRig transferring evaluating
  obtain ⟨parameters, third, reading, afterRead⟩ := yields_bind_iff.mp afterEvaluate
  obtain ⟨sameThird, laterData, laterNode, rfl⟩ := yields_parameters reading
  rw [beforeReads.keeps (lt_size_of_node? found), found] at laterNode
  cases laterNode
  rw [spent.parametersAmong_eq regular beforeReads found] at afterRead
  obtain ⟨_, fourth, readingOut, returned⟩ := yields_bind_iff.mp afterRead
  obtain ⟨rfl, rfl⟩ := yields_pure_iff.mp returned
  rw [← sameThird] at beforeReads calling evaluated
  obtain ⟨reads, readStretch, read⟩ := census_of_reads (spent.pending regular beforeReads found)
    evaluated.gives
    (fun parameter member => ((parameters_listed regular found).1 parameter member).2.1) readingOut
  refine ⟨rig, call, cast, result, reads, rfl, port, ?_, ?_, read⟩
  · exact (transferred.trans calling (by simp)).trans readStretch (by simp)
  · exact evaluated.retained (readStretch.retains (by simp))
      ((provided.handle.mono transferred.extended).mono calling.extended).added fun id given =>
        (((provided.delegates id given).mono transferred.extended).mono calling.extended).added

/-- The nodes of the layout stand for the evaluator: the sub-rig is allocated, the inputs are
written to its fields, it is evaluated, and the outputs are read from the fields of the result. -/
structure Realizes (env : Environment) (target : Target) (base graph : Graph)
    (inputs outputs : List (PinId × Field)) (index : UInt32) (handle result : PinId)
    (layout : Layout) : Prop where
  allocated : target.Allocated env base graph layout.call layout.cast index handle
  gathers : layout.event.isSome ↔ inputs ≠ []
  event : ∀ event, layout.event = some event → ∃ functionName, Spawned base graph target.node
    (.event env.runtime.gatherSignature functionName) event
  written : List.Forall₂ (fun input write => input.2.WrittenBy target.node target.rigType handle
    base graph write.1 write.2) inputs layout.writes
  evaluated : ∃ delegate : Option PinId,
    Option.Rel (fun event id => graph.Port event .output PinName.outputDelegate id) layout.event
      delegate ∧
    target.Evaluated env base graph delegate layout.evaluation layout.resultCast handle result
  read : List.Forall₂ (fun output read => output.2.ReadBy target.node target.rigType result base
    graph read) outputs layout.reads

/-- The way of an expansion up to where the evaluator is left behind. -/
structure Unfolds (env : Environment) (target : Target) (base graph : Graph)
    (inputs outputs : List (PinId × Field)) (index : UInt32) (layout : Layout) : Prop where
  stretch : ∃ rig, base.Port target.node .output PinName.rig rig ∧
    Stretch base (inputs.map (·.1) ++ rig :: outputs.map (·.1)) [] layout.nodes base graph
  realizes : ∃ handle result, target.Realizes env base graph inputs outputs index handle result
    layout
  runs : ∀ event, layout.event = some event → graph.Runs event layout.writers

theorem writers_new {handle : PinId} {inputs : List (PinId × Field)}
    {writes : List (List NodeId × NodeId)}
    (written : List.Forall₂ (fun input write => input.2.WrittenBy target.node target.rigType handle
      base graph write.1 write.2) inputs writes) :
    ∀ writer ∈ writes.map (·.2), base.nodes.size ≤ writer.index := by
  induction written with
  | nil => simp
  | cons write _ ih => exact List.forall_mem_cons.mpr ⟨write.spawned.added, ih⟩

theorem unfolds_of_expandOutputs {data : Node} {gathered : Option GatheredInputs} {index : UInt32}
    (regular : base.Regular) (found : base.node? target.node = some data)
    (gathers : target.GathersAs env base before.graph
      (target.parametersAmong env .input base data.pins) gathered)
    (yielded : Yields (target.expandOutputs env gathered) before index after) :
    ∃ layout, layout.event = gathered.map (·.event) ∧
      target.Unfolds env base after.graph (target.parametersAmong env .input base data.pins)
        (target.parametersAmong env .output base data.pins) index layout := by
  have gone := @fst_parameters_listed env target base .input data regular found
  generalize target.parametersAmong env .input base data.pins = inputs at *
  cases gathers with
  | nothing empty same =>
      subst empty same
      obtain ⟨subRig, first, allocating, reading⟩ := yields_bind_iff.mp yielded
      obtain ⟨call, cast, stretch, allocated⟩ :=
        allocated_of_allocate regular.toSound (.refl _) regular allocating
      obtain ⟨rig, evaluation, resultCast, result, reads, rfl, rigPort, later, evaluated, read⟩ :=
        evaluated_of_readFrom regular ⟨stretch, by simp, allocated.gives, by simp⟩ found reading
      refine ⟨⟨call, cast, none, [], evaluation, resultCast, reads⟩, rfl,
        ⟨rig, rigPort, ?_⟩, ⟨subRig.pin, result, ?_⟩, by simp⟩
      · simpa [Layout.nodes] using stretch.trans later (by simp)
      · exact ⟨allocated.retained (later.retains (by simp)), by simp, by simp, .nil,
          ⟨none, .none, evaluated⟩, read⟩
  | @event call cast writes given filled stretch gathers =>
      obtain ⟨functionName, spawned⟩ := gathers.event
      have delegateGives := gathers.delegate.gives spawned.added
      obtain ⟨rig, evaluation, resultCast, result, reads, rfl, rigPort, later, evaluated, read⟩ :=
        evaluated_of_readFrom regular ⟨stretch, gone, gathers.allocated.gives,
          fun id delegated => by cases delegated; exact delegateGives⟩ found yielded
      have retains := later.retainsOrder
      refine ⟨⟨call, cast, some given.event, writes, evaluation, resultCast, reads⟩, rfl,
        ⟨rig, rigPort, ?_⟩, ⟨given.subRig.pin, result, ?_⟩, ?_⟩
      · simpa [Layout.nodes] using stretch.trans later (by simp)
      · refine ⟨gathers.allocated.retained retains.toRetains, by simpa using filled, ?_, ?_,
          ⟨some given.delegate, .some ?_, evaluated⟩, read⟩
        · rintro _ ⟨⟩
          exact ⟨functionName, spawned.mono rfl later.extended⟩
        · exact gathers.written.imp fun _ _ written =>
            written.retained retains.toRetains gathers.allocated.gives.added
        · exact (gathers.delegate.mono later.extended).port
      · rintro _ ⟨⟩
        exact retains.runs gathers.runs spawned.added (writers_new gathers.written)

theorem Realizes.retained {inputs outputs : List (PinId × Field)} {index : UInt32}
    {handle result : PinId} {layout : Layout} {later : Graph}
    (realizes : target.Realizes env base graph inputs outputs index handle result layout)
    (retains : Retains base graph later) :
    target.Realizes env base later inputs outputs index handle result layout where
  allocated := realizes.allocated.retained retains
  gathers := realizes.gathers
  event := by
    intro event made
    obtain ⟨functionName, spawned⟩ := realizes.event event made
    exact ⟨functionName, spawned.mono rfl retains.extended⟩
  written := realizes.written.imp fun _ _ written =>
    written.retained retains realizes.allocated.gives.added
  evaluated := by
    obtain ⟨delegate, related, evaluated⟩ := realizes.evaluated
    have event := realizes.event
    generalize layout.event = made at related event ⊢
    refine ⟨delegate, ?_, evaluated.retained retains realizes.allocated.gives.added ?_⟩
    · cases related with
      | none => exact .none
      | some port => exact .some (port.mono retains.extended)
    · rintro id rfl
      cases related with
      | some port =>
          obtain ⟨_, spawned⟩ := event _ rfl
          exact spawned.port_added port
  read := by
    obtain ⟨_, _, evaluated⟩ := realizes.evaluated
    exact realizes.read.imp fun _ _ read => read.retained retains evaluated.gives.added

theorem unfolds_of_expand {index : UInt32} {event : Option NodeId} (regular : before.graph.Regular)
    (yielded : Yields (target.expand env) before (.expanded index event) after) :
    ∃ data layout middle, before.graph.node? target.node = some data ∧ layout.event = event ∧
      target.Unfolds env before.graph middle
        (target.parametersAmong env .input before.graph data.pins)
        (target.parametersAmong env .output before.graph data.pins) index layout ∧
      Retired target.node middle after.graph := by
  obtain ⟨gathered, first, gathering, afterInputs⟩ := yields_bind_iff.mp yielded
  obtain ⟨data, found, gathers⟩ := gathers_of_expandInputs regular gathering
  obtain ⟨_, second, readingOut, afterOutputs⟩ := yields_bind_iff.mp afterInputs
  obtain ⟨layout, eventSame, unfolds⟩ := unfolds_of_expandOutputs regular found gathers readingOut
  obtain ⟨_, third, unlinking, afterUnlink⟩ := yields_bind_iff.mp afterOutputs
  obtain ⟨_, fourth, marking, returned⟩ := yields_bind_iff.mp afterUnlink
  obtain ⟨outcome, rfl⟩ := yields_pure_iff.mp returned
  cases outcome
  obtain ⟨_, _, stretch⟩ := unfolds.stretch
  exact ⟨data, layout, second.graph, found, eventSame, unfolds, Edit.retired_of_unlinkNode
    stretch.regular (Pass.yields_edit unlinking) (Pass.yields_edit marking)⟩

end Target

namespace Environment

open RigLowering.Graph

theorem unfolds_of_expandNode {env : Environment} {node : NodeId} {index : UInt32}
    {event : Option NodeId} {before after : PassState} (regular : before.graph.Regular)
    (yielded : Yields (env.expandNode node) before (.expanded index event) after) :
    ∃ target data layout middle, env.target before.fullCompile before.graph node =
        .ok (.inr target) ∧ target.node = node ∧ before.graph.node? node = some data ∧
      layout.event = event ∧ target.Unfolds env before.graph middle
        (target.parametersAmong env .input before.graph data.pins)
        (target.parametersAmong env .output before.graph data.pins) index layout ∧
      Retired node middle after.graph := by
  rcases yields_expandNode yielded with ⟨_, skipped, _⟩ | ⟨target, found, expanding⟩
  · cases skipped
  · obtain ⟨_, _, _, _, _, _, _, _, same⟩ := target_eq_inr found
    obtain rfl : target.node = node := congrArg Target.node same
    obtain ⟨data, layout, middle, live, eventSame, unfolds, retired⟩ :=
      Target.unfolds_of_expand regular expanding
    exact ⟨target, data, layout, middle, found, rfl, live, eventSame, unfolds, retired⟩

/-- An expansion makes just the nodes of one layout: a call that allocates the sub-rig, with its
index and its class, and the cast of what it returns; where inputs count, an event, and for each of
them the nodes that write it to the handle; a call that evaluates the handle, after the event if
there is one, and the cast of what it returns; and for each output that counts the nodes that read
it from the result. -/
theorem expandNode_census (env : Environment) {node : NodeId} {index : UInt32}
    {event : Option NodeId} {before after : PassState} (wellFormed : before.graph.WellFormed)
    (expanded : (env.expandNode node).run before = (.ok (.expanded index event), after)) :
    ∃ (target : Target) (data : Node) (layout : Layout) (handle result : PinId),
      env.target before.fullCompile before.graph node = .ok (.inr target) ∧
      target.node = node ∧ before.graph.node? node = some data ∧ layout.event = event ∧
      after.graph.nodeIds = before.graph.nodeIds ++ layout.nodes ∧
      target.Realizes env before.graph after.graph
        (target.parametersAmong env .input before.graph data.pins)
        (target.parametersAmong env .output before.graph data.pins) index handle result layout := by
  have regular := wellFormed_iff_regular.mp wellFormed
  obtain ⟨target, data, layout, middle, found, same, live, eventSame, unfolds, retired⟩ :=
    unfolds_of_expandNode regular expanded
  obtain ⟨_, _, stretch⟩ := unfolds.stretch
  obtain ⟨handle, result, realizes⟩ := unfolds.realizes
  have retains := retired.retainsOrder (lt_size_of_node? live)
  refine ⟨target, data, layout, handle, result, found, same, live, eventSame, ?_,
    realizes.retained retains.toRetains⟩
  rw [retired.nodeIds, stretch.nodes]

end Environment

namespace CrossedLegs

theorem census_of_first_leg :
    ∃ (after : PassState) (target : Target) (layout : Layout) (handle result : PinId),
      (env.expandNode ⟨0⟩).run start = (.ok (.expanded 0 (some ⟨5⟩)), after) ∧
      layout.event = some ⟨5⟩ ∧ after.graph.nodeIds = [⟨0⟩, ⟨1⟩, ⟨2⟩] ++ layout.nodes ∧
      target.Realizes env start.graph after.graph
        (target.parametersAmong env .input start.graph [⟨0⟩, ⟨1⟩, ⟨2⟩])
        (target.parametersAmong env .output start.graph [⟨0⟩, ⟨1⟩, ⟨2⟩]) 0 handle result
        layout := by
  obtain ⟨after, expanded⟩ := firstExpanded
  obtain ⟨target, data, layout, handle, result, _, _, live, eventSame, made, realizes⟩ :=
    env.expandNode_census startWellFormed expanded
  have same : start.graph.node? ⟨0⟩ = some ⟨⟨0⟩, leg, [⟨0⟩, ⟨1⟩, ⟨2⟩], none⟩ := rfl
  cases live.symm.trans same
  exact ⟨after, target, layout, handle, result, expanded, eventSame, made, realizes⟩

end CrossedLegs

end RigLowering
