import Mathlib.Data.List.Nodup
import RigLowering.Proofs.Vacancy
import RigLowering.Proofs.WriteOrder

namespace RigLowering

/-- The field that such a node writes to. -/
def NodeKind.writtenField? : NodeKind → Option String
  | .setField _ property => some property
  | .bindField _ property => some property
  | _ => none

theorem Field.writtenField?_writeKind (owner : String) (field : Field) :
    (field.writeKind owner).writtenField? = some field.name := by
  unfold writeKind
  cases field.kind <;> rfl

namespace Graph

def writtenField? (graph : Graph) (node : NodeId) : Option String :=
  (graph.node? node).bind (·.kind.writtenField?)

variable {graph before after base : Graph} {exec last otherLast : PinId} {event source : NodeId}
  {nodes more evaluators : List NodeId}

theorem Sequence.unique (regular : graph.Regular) (sequence : graph.Sequence exec nodes last)
    (ends : graph.links last = []) (other : graph.Sequence exec more otherLast)
    (otherEnds : graph.links otherLast = []) : more = nodes := by
  induction sequence generalizing more with
  | done =>
      cases other with
      | done => rfl
      | next _ only _ _ => cases ends.symm.trans only
  | next enters only leaves _ ih =>
      cases other with
      | done => cases otherEnds.symm.trans only
      | next otherEnters otherOnly otherLeaves onward =>
          cases only.symm.trans otherOnly
          obtain rfl := enters.owner_eq otherEnters
          obtain rfl := otherLeaves.eq_of_port regular leaves.port
          rw [ih ends onward]

theorem Runs.unique (regular : graph.Regular) (runs : graph.Runs event nodes)
    (others : graph.Runs event more) : more = nodes := by
  obtain ⟨exec, last, starts, sequence, ends⟩ := runs
  obtain ⟨otherExec, otherLast, otherStarts, otherSequence, otherEnds⟩ := others
  obtain rfl := otherStarts.eq_of_port regular starts.port
  exact sequence.unique regular ends otherSequence otherEnds

theorem Vacated.hasPin (vacated : Vacated evaluators before after) {spec : PinSpec} {id : PinId}
    (hasPin : before.HasPin source spec id) : after.HasPin source spec id := by
  obtain ⟨face, found, rest⟩ := hasPin
  exact ⟨face, vacated.face?_eq found, rest⟩

theorem Vacated.links_eq (vacated : Vacated evaluators before after) {spec : PinSpec} {id : PinId}
    (hasPin : before.HasPin source spec id) (kept : source ∉ evaluators)
    (apart : ∀ far ∈ before.links id, ∀ node ∈ evaluators, ¬ before.Owns node far) :
    after.links id = before.links id := by
  obtain ⟨face, found, rfl, _⟩ := hasPin
  obtain ⟨pin, live, rfl, _⟩ := exists_pin?_of_face? found
  obtain ⟨links, laterLive, same⟩ := vacated.pin id pin live kept
  rw [links_of_pin? live] at apart ⊢
  rw [links_of_pin? laterLive]
  exact same apart

theorem Vacated.nodeCount_le (vacated : Vacated evaluators before after) :
    before.nodes.size ≤ after.nodes.size := by
  by_contra fewer
  have present : after.nodes.size < before.nodes.size := Nat.lt_of_not_le fewer
  have found : before.node? ⟨after.nodes.size⟩ = some before.nodes[after.nodes.size] :=
    Array.getElem?_eq_getElem present
  refine Nat.lt_irrefl after.nodes.size ?_
  by_cases member : ⟨after.nodes.size⟩ ∈ evaluators
  · obtain ⟨_, _, _, _, later⟩ := vacated.evaluator _ member
    exact lt_size_of_node? later
  · exact lt_size_of_node? (vacated.node _ _ found member)

theorem Vacated.sequence (vacated : Vacated evaluators before after) {spec : PinSpec}
    (sequence : before.Sequence exec nodes last) (starts : before.HasPin source spec exec)
    (kept : ∀ node ∈ source :: nodes, node ∉ evaluators) (ends : before.links last = []) :
    after.Sequence exec nodes last ∧ after.links last = [] := by
  induction sequence generalizing source spec with
  | done =>
      refine ⟨.done, (vacated.links_eq starts (kept _ List.mem_cons_self) ?_).trans ends⟩
      rw [ends]
      exact fun _ member => (nomatch member)
  | next enters only leaves _ ih =>
      obtain ⟨sourceKept, nodesKept⟩ := List.forall_mem_cons.mp kept
      obtain ⟨onward, laterEnds⟩ := ih leaves nodesKept ends
      refine ⟨.next (vacated.hasPin enters) ?_ (vacated.hasPin leaves) onward, laterEnds⟩
      rw [vacated.links_eq starts sourceKept, only]
      intro far member node evaluator owned
      rw [only, List.mem_singleton] at member
      obtain rfl := (member ▸ owned).unique enters.owns
      exact nodesKept _ List.mem_cons_self evaluator

theorem Vacated.runs (vacated : Vacated evaluators before after) (runs : before.Runs event nodes)
    (kept : ∀ node ∈ event :: nodes, node ∉ evaluators) : after.Runs event nodes := by
  obtain ⟨exec, last, starts, sequence, ends⟩ := runs
  obtain ⟨later, laterEnds⟩ := vacated.sequence sequence starts kept ends
  exact ⟨exec, last, vacated.hasPin starts, later, laterEnds⟩

theorem Vacated.writtenField? (vacated : Vacated evaluators before after) {node : NodeId}
    (kept : node ∉ evaluators) {field : String} (written : before.writtenField? node = some field) :
    after.writtenField? node = some field := by
  obtain ⟨data, found, named⟩ := Option.bind_eq_some_iff.mp written
  exact Option.bind_eq_some_iff.mpr ⟨data, vacated.node node data found kept, named⟩

/-- The event, which is none of the first `count` nodes, runs writes of the fields, which are not
among them either. -/
structure RunsWrites (graph : Graph) (count : Nat) (event : NodeId) (writers : List NodeId)
    (fields : List String) : Prop where
  runs : graph.Runs event writers
  new : ∀ node ∈ event :: writers, count ≤ node.index
  written : writers.map graph.writtenField? = fields.map some

section RunsWrites

variable {count : Nat} {writers : List NodeId} {fields : List String}

theorem RunsWrites.vacated (runsWrites : before.RunsWrites count event writers fields)
    (vacated : Vacated evaluators before after) (old : ∀ node ∈ evaluators, node.index < count) :
    after.RunsWrites count event writers fields := by
  have kept : ∀ node ∈ event :: writers, node ∉ evaluators := fun node member evaluator =>
    Nat.not_lt_of_le (runsWrites.new node member) (old node evaluator)
  refine ⟨vacated.runs runsWrites.runs kept, runsWrites.new, ?_⟩
  rw [← runsWrites.written]
  refine List.map_congr_left fun writer member => ?_
  have named : before.writtenField? writer ∈ fields.map some :=
    runsWrites.written ▸ List.mem_map_of_mem member
  obtain ⟨field, _, same⟩ := List.mem_map.mp named
  rw [← same]
  exact vacated.writtenField? (kept writer (List.mem_cons_of_mem _ member)) same.symm

theorem RunsWrites.of_same (runsWrites : before.RunsWrites count event writers fields)
    (nodes : after.nodes = before.nodes) (pins : after.pins = before.pins) :
    after.RunsWrites count event writers fields :=
  runsWrites.vacated (.of_same nodes pins) fun _ member => (nomatch member)

end RunsWrites

end Graph

namespace Target

open RigLowering.Graph

variable {env : Environment} {target : Target} {direction : PinDirection}

/-- No two parameters of one direction belong to the same field. -/
theorem nodup_fieldNames {graph : Graph} (regular : graph.Regular) {data : Node}
    (found : graph.node? target.node = some data) :
    ((target.parametersAmong env direction graph data.pins).map (·.2.name)).Nodup := by
  have pinsApart : ((target.parametersAmong env direction graph data.pins).map (·.1)).Nodup :=
    nodup_parameters regular found
  refine List.Nodup.map_on ?_ (List.Nodup.of_map _ pinsApart)
  intro first firstMember second secondMember same
  apply List.inj_on_of_nodup_map pinsApart firstMember secondMember
  obtain ⟨pin, live, owner, toward, hasField⟩ :=
    (mem_parameters_iff regular.toSound found).mp firstMember
  obtain ⟨other, otherLive, otherOwner, otherToward, otherHasField⟩ :=
    (mem_parameters_iff regular.toSound found).mp secondMember
  exact regular.namesUnique (face?_of_pin? live) (face?_of_pin? otherLive)
    (owner.trans otherOwner.symm)
    (hasField.name_eq.symm.trans (same.trans otherHasField.name_eq))
    (toward.trans otherToward.symm)

end Target

namespace Environment

open RigLowering.Graph

variable {env : Environment} {node event : NodeId} {index : UInt32}

theorem event_added {before after : PassState} (regular : before.graph.Regular)
    (yielded : Yields (env.expandNode node) before (.expanded index (some event)) after) :
    before.graph.nodes.size ≤ event.index := by
  obtain ⟨_, _, _, _, _, _, _, eventSame, unfolds, _⟩ := unfolds_of_expandNode regular yielded
  obtain ⟨_, _, realizes⟩ := unfolds.realizes
  obtain ⟨_, spawned⟩ := realizes.event event eventSame
  exact spawned.added

theorem written_of_spawned {base graph : Graph} {owner : String} {inputs : List (PinId × Field)}
    {writers : List NodeId} (spawned : List.Forall₂ (fun input writer =>
      Spawned base graph node (input.2.writeKind owner) writer) inputs writers) :
    (∀ writer ∈ writers, base.nodes.size ≤ writer.index) ∧
      writers.map graph.writtenField? = (inputs.map (·.2.name)).map some := by
  induction spawned with
  | nil => simp
  | @cons input writer _ _ first _ ih =>
      obtain ⟨new, written⟩ := ih
      obtain ⟨added, data, found, kind, _⟩ := first
      have named : graph.writtenField? writer = some input.2.name := by
        rw [Graph.writtenField?, found, Option.bind_some, kind, Field.writtenField?_writeKind]
      refine ⟨List.forall_mem_cons.mpr ⟨added, new⟩, ?_⟩
      rw [List.map_cons, named, written, List.map_cons, List.map_cons]

/-- The event of an expansion writes each field once. -/
theorem runsWrites_of_expandNode {before after : PassState} (regular : before.graph.Regular)
    (yielded : Yields (env.expandNode node) before (.expanded index (some event)) after) :
    ∃ writers fields, fields.Nodup ∧
      after.graph.RunsWrites before.graph.nodes.size event writers fields := by
  obtain ⟨target, data, writers, found, live, spawned, runs⟩ :=
    runs_of_expandNode regular yielded
  obtain ⟨_, _, _, _, _, _, _, _, same⟩ := target_eq_inr found
  obtain rfl : target.node = node := congrArg Target.node same
  obtain ⟨new, written⟩ := written_of_spawned spawned
  exact ⟨writers, _, Target.nodup_fieldNames regular live, runs,
    List.forall_mem_cons.mpr ⟨event_added regular yielded, new⟩, written⟩

section Pass

variable {progress next : PassState × Tally} {count : Nat} {writers : List NodeId}
  {fields : List String} {rest : List NodeId}

theorem runsWrites_compileNode (regular : progress.1.graph.Regular) (old : node.index < count)
    (runsWrites : progress.1.graph.RunsWrites count event writers fields)
    (ran : env.compileNode progress node = .ok next) :
    next.1.graph.RunsWrites count event writers fields := by
  rcases compileNode_cases ran with ⟨_, _, after, expanding, same⟩ | ⟨_, same⟩
  · have vacated := vacated_of_expandNode (durable_regular.checkpoint regular) expanding
    have opened : progress.1.checkpoint.graph.RunsWrites count event writers fields :=
      runsWrites.of_same rfl rfl
    rw [same]
    refine (opened.vacated vacated fun other member => ?_).of_same rfl rfl
    exact List.mem_singleton.mp member ▸ old
  · rw [same]
    exact runsWrites.of_same rfl rfl

theorem runsWrites_foldlM (regular : progress.1.graph.Regular)
    (old : ∀ node ∈ rest, node.index < count)
    (runsWrites : progress.1.graph.RunsWrites count event writers fields)
    (ran : rest.foldlM env.compileNode progress = .ok next) :
    next.1.graph.Regular ∧ next.1.graph.RunsWrites count event writers fields := by
  induction rest generalizing progress with
  | nil =>
      cases ran
      exact ⟨regular, runsWrites⟩
  | cons node rest ih =>
      rw [List.foldlM_cons] at ran
      obtain ⟨middle, step, others⟩ := bind_eq_ok_iff.mp ran
      obtain ⟨nodeOld, restOld⟩ := List.forall_mem_cons.mp old
      exact ih (durable_regular.compileNode step regular) restOld
        (runsWrites_compileNode regular nodeOld runsWrites step) others

end Pass

end Environment

namespace Graph

/-- The event of each evaluator that a pass expands runs writes of different fields. -/
theorem WellFormed.compile_writes_fields_once {graph : Graph} {registry : RigRegistry}
    {runtime : RigRuntime} {options : PassOptions} {compiled : CompiledGraph} {node event : NodeId}
    {index : UInt32} {before after : PassState} (wellFormed : graph.WellFormed)
    (ran : graph.compile registry runtime options = .ok compiled)
    (expands : graph.Expands registry runtime options node before after)
    (expanded : (Environment.expandNode ⟨registry, runtime⟩ node).run before =
      (.ok (.expanded index (some event)), after)) :
    ∃ (writers : List NodeId) (fields : List String),
      (∀ nodes, compiled.graph.Runs event nodes ↔ nodes = writers) ∧
      writers.map compiled.graph.writtenField? = fields.map some ∧ fields.Nodup := by
  have regular := wellFormed_iff_regular.mp wellFormed
  obtain ⟨final, folded, rfl⟩ := compile_eq_ok ran
  obtain ⟨done, rest, state, tally, split, reached, rfl⟩ := expands.reached
  have begun : (PassState.start registry options graph).graph.Regular :=
    regular.of_links_eq ⟨rfl, rfl, fun _ => rfl, fun _ => rfl⟩ fun _ => rfl
  obtain ⟨_, vacates⟩ := Environment.vacates_foldlM regular.composites_nodup
    (fun _ => regular.mem_composites_lt) regular.toSound (.of_same rfl rfl) begun split reached
  rw [split, List.foldlM_append] at folded
  obtain ⟨progress, doneRan, onward⟩ := bind_eq_ok_iff.mp folded
  cases doneRan.symm.trans reached
  rw [List.foldlM_cons] at onward
  obtain ⟨middle, step, others⟩ := bind_eq_ok_iff.mp onward
  obtain ⟨writers, fields, distinct, runsWrites⟩ :=
    Environment.runsWrites_of_expandNode (durable_regular.checkpoint vacates.regular) expanded
  have middleRuns :
      middle.1.graph.RunsWrites state.checkpoint.graph.nodes.size event writers fields := by
    rcases Environment.compileNode_cases step with ⟨_, _, _, run, same⟩ | ⟨unexpanded, _⟩
    · cases expanded.symm.trans run
      exact same ▸ runsWrites.of_same rfl rfl
    · exact (unexpanded ⟨index, some event, after, expanded⟩).elim
  have old : ∀ other ∈ rest, other.index < state.checkpoint.graph.nodes.size := by
    intro other member
    have composite : other ∈ graph.composites := by simp [split, member]
    exact Nat.lt_of_lt_of_le (regular.mem_composites_lt composite) vacates.vacated.nodeCount_le
  obtain ⟨finalRegular, finalRuns⟩ := Environment.runsWrites_foldlM
    (durable_regular.compileNode step vacates.regular) old middleRuns others
  exact ⟨writers, fields, fun nodes => ⟨finalRuns.runs.unique finalRegular, fun same =>
    same ▸ finalRuns.runs⟩, finalRuns.written, distinct⟩

end Graph

/-! A dial that feeds two inputs of a leg, whose pins may be listed in any way. -/

namespace SharedDial

open RigLowering.Graph

def fields : List Field :=
  [⟨"height", .float, .input, .scalar⟩, ⟨"stride", .float, .input, .scalar⟩]

def registry : RigRegistry :=
  ⟨"Rig", NameMap.empty.insert "Leg" ⟨"Leg", "Rig", fields⟩⟩

theorem registryBuilt : registry.Built :=
  .register (.empty "Rig") (rfl : RigRegistry.register _ ⟨"Leg", "Rig", fields⟩ = _)

def graph (listed : List PinId) : Graph where
  name := "SharedDial"
  parentClass := none
  nodes := #[
    ⟨⟨0⟩, .evaluator { EvaluatorSettings.unset with rigType := some "Leg" }, listed, none⟩,
    ⟨⟨1⟩, .primitive "dial", [⟨3⟩], none⟩]
  pins := #[
    some ⟨⟨0⟩, ⟨0⟩, "height", .input, .float, none, none, [⟨3⟩]⟩,
    some ⟨⟨1⟩, ⟨0⟩, "stride", .input, .float, none, none, [⟨3⟩]⟩,
    some ⟨⟨2⟩, ⟨0⟩, "Rig", .output, .object "Leg", none, none, []⟩,
    some ⟨⟨3⟩, ⟨1⟩, "level", .output, .float, none, none, [⟨0⟩, ⟨1⟩]⟩]
  hierarchy := .empty
  undo := none

def compile (listed : List PinId) : Except Error CompiledGraph :=
  (graph listed).compile registry (.standard "Rig") .standard

def start (listed : List PinId) : PassState :=
  (PassState.start registry .standard (graph listed)).checkpoint

def expand (listed : List PinId) : Except Error Outcome × PassState :=
  (Environment.expandNode ⟨registry, .standard "Rig"⟩ ⟨0⟩).run (start listed)

theorem expands {listed : List PinId} {event : NodeId} {after : PassState}
    (expanded : expand listed = (.ok (.expanded 0 (some event)), after)) :
    (graph listed).Expands registry (.standard "Rig") .standard ⟨0⟩ (start listed) after :=
  ⟨⟨[], [], _, _, rfl, rfl, rfl⟩, 0, some event, expanded⟩

def once : List PinId := [⟨0⟩, ⟨1⟩, ⟨2⟩]

theorem wellFormed : (graph once).WellFormed where
  audited := rfl
  pinsOnce := by decide
  linksOnce := by decide
  namesOnce := by decide

/-- The height and the stride are written once each. -/
theorem writes_height_and_stride_once : (graph once).WellFormed ∧
    ∃ (compiled : CompiledGraph) (after : PassState) (writers : List NodeId)
      (fields : List String), compile once = .ok compiled ∧
      (graph once).Expands registry (.standard "Rig") .standard ⟨0⟩ (start once) after ∧
      expand once = (.ok (.expanded 0 (some ⟨4⟩)), after) ∧ compiled.graph.Runs ⟨4⟩ writers ∧
      writers.map compiled.graph.writtenField? = fields.map some ∧ fields.Nodup := by
  obtain ⟨compiled, ran⟩ : ∃ compiled, compile once = .ok compiled :=
    exists_eq_ok (by decide +kernel)
  obtain ⟨after, expanded⟩ : ∃ after, expand once = (.ok (.expanded 0 (some ⟨4⟩)), after) :=
    Pass.exists_run_eq_ok (by decide +kernel)
  obtain ⟨writers, fields, runs, written, distinct⟩ :=
    WellFormed.compile_writes_fields_once wellFormed ran (expands expanded) expanded
  exact ⟨wellFormed, compiled, after, writers, fields, ran, expands expanded, expanded,
    (runs writers).mpr rfl, written, distinct⟩

def twice : List PinId := [⟨0⟩, ⟨1⟩, ⟨0⟩, ⟨2⟩]

def execPins : List Pin :=
  [⟨⟨10⟩, ⟨4⟩, PinName.continuation, .output, .exec, none, none, [⟨12⟩]⟩,
    ⟨⟨12⟩, ⟨5⟩, PinName.execute, .input, .exec, none, none, [⟨10⟩]⟩,
    ⟨⟨13⟩, ⟨5⟩, PinName.continuation, .output, .exec, none, none, [⟨16⟩]⟩,
    ⟨⟨16⟩, ⟨6⟩, PinName.execute, .input, .exec, none, none, [⟨13⟩]⟩,
    ⟨⟨17⟩, ⟨6⟩, PinName.continuation, .output, .exec, none, none, [⟨20⟩]⟩,
    ⟨⟨20⟩, ⟨7⟩, PinName.execute, .input, .exec, none, none, [⟨17⟩]⟩,
    ⟨⟨21⟩, ⟨7⟩, PinName.continuation, .output, .exec, none, none, []⟩]

theorem compile_twice : ∃ compiled, compile twice = .ok compiled ∧
    (∀ pin ∈ execPins, compiled.graph.pin? pin.id = some pin) ∧
    [⟨5⟩, ⟨6⟩, ⟨7⟩].map compiled.graph.writtenField? =
      [some "height", some "stride", some "height"] := by
  obtain ⟨compiled, ran⟩ : ∃ compiled, compile twice = .ok compiled :=
    exists_eq_ok (by decide +kernel)
  have made : (compile twice).toOption.all fun compiled =>
      decide ((∀ pin ∈ execPins, compiled.graph.pin? pin.id = some pin) ∧
        [⟨5⟩, ⟨6⟩, ⟨7⟩].map compiled.graph.writtenField? =
          [some "height", some "stride", some "height"]) := by
    decide +kernel
  rw [ran] at made
  exact ⟨compiled, ran, of_decide_eq_true made⟩

theorem runs_of_execPins {compiled : Graph}
    (live : ∀ pin ∈ execPins, compiled.pin? pin.id = some pin) :
    compiled.Runs ⟨4⟩ [⟨5⟩, ⟨6⟩, ⟨7⟩] := by
  simp only [execPins, List.forall_mem_cons] at live
  obtain ⟨start, firstEntry, firstExit, secondEntry, secondExit, thirdEntry, thirdExit, _⟩ := live
  exact ⟨⟨10⟩, ⟨21⟩, hasPin_of_pin? start,
    .next (hasPin_of_pin? firstEntry) (links_of_pin? start) (hasPin_of_pin? firstExit) <|
      .next (hasPin_of_pin? secondEntry) (links_of_pin? firstExit) (hasPin_of_pin? secondExit) <|
        .next (hasPin_of_pin? thirdEntry) (links_of_pin? secondExit) (hasPin_of_pin? thirdExit)
          .done, links_of_pin? thirdExit⟩

/-- An input that is listed twice is written twice, and the second time to nothing. -/
theorem not_always_once : ¬ ∀ (registry : RigRegistry) (runtime : RigRuntime)
    (options : PassOptions) (graph : Graph) (compiled : CompiledGraph) (node event : NodeId)
    (index : UInt32) (before after : PassState) (writers : List NodeId), registry.Built →
      graph.audit = .ok () → graph.compile registry runtime options = .ok compiled →
        graph.Expands registry runtime options node before after →
          (Environment.expandNode ⟨registry, runtime⟩ node).run before =
            (.ok (.expanded index (some event)), after) →
          compiled.graph.Runs event writers →
            (writers.map compiled.graph.writtenField?).Nodup := by
  intro once
  obtain ⟨compiled, ran, live, written⟩ := compile_twice
  obtain ⟨after, expanded⟩ : ∃ after, expand twice = (.ok (.expanded 0 (some ⟨4⟩)), after) :=
    Pass.exists_run_eq_ok (by decide +kernel)
  have distinct := once registry _ _ (graph twice) compiled ⟨0⟩ ⟨4⟩ 0 (start twice) after _
    registryBuilt rfl ran (expands expanded) expanded (runs_of_execPins live)
  rw [written] at distinct
  simp at distinct

end SharedDial

end RigLowering
