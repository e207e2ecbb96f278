import Mathlib.Data.List.ReduceOption
import RigLowering.Proofs.AuditPreservation
import RigLowering.Proofs.FunctionNames
import RigLowering.Proofs.Routine

namespace RigLowering

namespace Graph

/-- For each node the function name that it has if it is an event. -/
def functionNames (graph : Graph) : List (Option String) :=
  graph.nodes.toList.map (·.kind.functionName?)

/-- The function names of the events that are not among the first `count` nodes. -/
def eventNamesFrom (graph : Graph) (count : Nat) : List String :=
  (graph.functionNames.drop count).reduceOption

theorem functionNames_eq (graph : Graph) :
    graph.functionNames = graph.kinds.map (·.2.functionName?) := by
  simp [functionNames, kinds, Function.comp_def]

theorem length_functionNames (graph : Graph) : graph.functionNames.length = graph.nodes.size := by
  simp [functionNames]

theorem functionNames_withNode (graph : Graph) (kind : NodeKind) (source : NodeId) :
    (graph.withNode kind source).functionNames = graph.functionNames ++ [kind.functionName?] := by
  rw [functionNames_eq, functionNames_eq, kinds_withNode, List.map_append, List.map_singleton]

/-- What an evaluator is set to has no part in the names of events. -/
theorem functionNames_modifyNode_mapSettings (graph : Graph) (node : NodeId)
    (change : EvaluatorSettings → EvaluatorSettings) :
    (Edit.modifyNode node (·.mapSettings change) graph).2.functionNames = graph.functionNames := by
  rw [Edit.modifyNode_apply]
  cases graph.node? node with
  | none => rfl
  | some _ =>
      refine graph.map_nodes_changeNode node fun data => ?_
      unfold Node.mapSettings NodeKind.mapSettings
      cases data.kind <;> rfl

end Graph

namespace PassState

/-- The graph has had the events of `own` at first.  Those made since then have names of their own,
the pass knows all names of events, and it has not forgotten any name of `reserved`. -/
structure Labelled (own : List (Option String)) (reserved : NameSet) (state : PassState) :
    Prop where
  made : ∃ made, state.graph.functionNames = own ++ made ∧ made.reduceOption.Nodup ∧
    ∀ name, some name ∈ made → some name ∉ own
  taken : ∀ name, some name ∈ state.graph.functionNames → state.functionNames.contains name
  kept : ∀ name, reserved.contains name → state.functionNames.contains name

variable {own : List (Option String)} {reserved : NameSet} {state : PassState}

theorem Labelled.of_functionNames_eq {graph : Graph} (labelled : state.Labelled own reserved)
    (same : graph.functionNames = state.graph.functionNames) :
    ({ state with graph } : PassState).Labelled own reserved where
  made := by
    change ∃ made, graph.functionNames = _ ∧ _
    rw [same]
    exact labelled.made
  taken := fun name member => labelled.taken name (same ▸ member)
  kept := labelled.kept

theorem Labelled.reserve (labelled : state.Labelled own reserved) (name : String) :
    ({ state with functionNames := state.functionNames.add name } : PassState).Labelled own
      reserved where
  made := labelled.made
  taken := fun other member => NameSet.contains_add_iff.mpr (.inr (labelled.taken other member))
  kept := fun other known => NameSet.contains_add_iff.mpr (.inr (labelled.kept other known))

/-- A node that is no event, or one whose name is reserved and not in use. -/
theorem Labelled.withNode {kind : NodeKind} (labelled : state.Labelled own reserved)
    (source : NodeId) (fresh : ∀ name, kind.functionName? = some name →
      state.functionNames.contains name ∧ some name ∉ state.graph.functionNames) :
    ({ state with
        graph := state.graph.withNode kind source, spawned := state.spawned + 1 }
      : PassState).Labelled own reserved where
  made := by
    obtain ⟨made, names, nodup, apart⟩ := labelled.made
    have absent : ∀ name, kind.functionName? = some name → some name ∉ own ∧ some name ∉ made := by
      intro name named
      have unused := (fresh name named).2
      rwa [names, List.mem_append, not_or] at unused
    refine ⟨made ++ [kind.functionName?], ?_, ?_, ?_⟩
    · rw [Graph.functionNames_withNode, names, List.append_assoc]
    · rw [List.reduceOption_append, List.reduceOption_singleton]
      cases named : kind.functionName? with
      | none => rwa [Option.toList_none, List.append_nil]
      | some name =>
          rw [Option.toList_some, ← List.concat_eq_append, List.nodup_concat,
            List.reduceOption_mem_iff]
          exact ⟨(absent name named).2, nodup⟩
    · intro name member
      rcases List.mem_append.mp member with old | new
      · exact apart name old
      · exact (absent name (List.mem_singleton.mp new).symm).1
  taken := by
    intro name member
    rw [Graph.functionNames_withNode, List.mem_append, List.mem_singleton] at member
    rcases member with old | new
    · exact labelled.taken name old
    · exact (fresh name new.symm).1
  kept := labelled.kept

/-- An event gets the name that is reserved for it. -/
theorem keeps_labelled_spawnEventNode (signature base : String) (source : NodeId) :
    Keeps (Labelled own reserved) (Pass.spawnEventNode signature base source) := by
  intro state labelled
  let name := uniqueName state.functionNames base
  let named : PassState := { state with functionNames := state.functionNames.add name }
  have ran : Pass.spawnEventNode signature base source state =
      Pass.spawnNode (.event signature name) source named := rfl
  have unused : some name ∉ state.graph.functionNames := fun member =>
    not_contains_uniqueName state.functionNames base (labelled.taken name member)
  rw [ran]
  rcases Pass.spawnNode_cases (.event signature name) source named with ⟨_, failed⟩ | made
  · rw [failed]
    exact labelled.reserve name
  · rw [made]
    refine (labelled.reserve name).withNode source fun other same => ?_
    cases same
    exact ⟨NameSet.contains_add_iff.mpr (.inl rfl), unused⟩

theorem keeps_labelled_quiet {α : Type} {step : Pass α} (quiet : step.Quiet) :
    Keeps (Labelled own reserved) step := by
  induction quiet with
  | edit confined =>
      intro state labelled
      refine labelled.of_functionNames_eq ?_
      rw [Graph.functionNames_eq, Graph.functionNames_eq, confined state.graph]
  | @spawnNode kind source _ nameless =>
      intro state labelled
      rcases Pass.spawnNode_cases kind source state with ⟨_, failed⟩ | made
      · rw [failed]
        exact labelled
      · rw [made]
        refine labelled.withNode source fun name named => ?_
        rw [nameless] at named
        cases named
  | spawnEventNode signature base source =>
      exact keeps_labelled_spawnEventNode signature base source
  | bind _ _ first next => exact first.bind next

theorem keeps_labelled_routine {α : Type} {step : Pass α} (routine : step.Routine) :
    Keeps (Labelled own reserved) step := by
  induction routine with
  | quiet quiet => exact keeps_labelled_quiet quiet
  | warn node message => exact fun _ labelled => ⟨labelled.made, labelled.taken, labelled.kept⟩
  | bind _ _ first next => exact first.bind next

theorem keeps_labelled_expandNode (env : Environment) (node : NodeId) :
    Keeps (Labelled own reserved) (env.expandNode node) := by
  refine env.keeps_expandNode keeps_labelled_routine ?_ ?_ node
  · exact fun _ labelled => ⟨labelled.made, labelled.taken, labelled.kept⟩
  · exact fun node state labelled => labelled.of_functionNames_eq
      (state.graph.functionNames_modifyNode_mapSettings node EvaluatorSettings.markInert)

/-- An expansion that is undone takes its events with it, and leaves the names that it has
reserved. -/
theorem Labelled.compileNode {env : Environment} {progress next : PassState × Tally} {node : NodeId}
    (ran : env.compileNode progress node = .ok next) (labelled : progress.1.Labelled own .empty) :
    next.1.Labelled own .empty := by
  have opened : progress.1.checkpoint.Labelled own progress.1.functionNames :=
    ⟨labelled.made, labelled.taken, fun _ known => known⟩
  have kept := keeps_labelled_expandNode env node _ opened
  rcases Environment.compileNode_eq_ok ran with ⟨_, after, run, rfl⟩ | ⟨_, after, run, _, rfl⟩
  · rw [run] at kept
    exact ⟨kept.made, kept.taken, fun _ known => by cases known⟩
  · rw [run] at kept
    exact ⟨labelled.made, fun name member => kept.kept name (labelled.taken name member),
      fun _ known => by cases known⟩

theorem labelled_start (registry : RigRegistry) (options : PassOptions) (graph : Graph) :
    (start registry options graph).Labelled graph.functionNames .empty where
  made := ⟨[], (List.append_nil _).symm, List.nodup_nil, fun _ absent => by cases absent⟩
  taken := by
    intro name member
    obtain ⟨node, listed, named⟩ := List.mem_map.mp member
    exact NameSet.contains_ofNames_iff.mpr (List.mem_filterMap.mpr ⟨node, listed, named⟩)
  kept := fun _ known => by cases known

end PassState

namespace Graph

/-- Whatever the events of a graph are called, and however many expansions are undone on the way:
the events that a pass leaves behind besides those of the graph have names of their own, that no
event of the graph has, and those of the graph have the names that they had. -/
theorem compile_names_events {graph : Graph} {registry : RigRegistry} {runtime : RigRuntime}
    {options : PassOptions} {compiled : CompiledGraph}
    (ran : graph.compile registry runtime options = .ok compiled) :
    (compiled.graph.eventNamesFrom graph.nodes.size).Nodup ∧
      (∀ name ∈ compiled.graph.eventNamesFrom graph.nodes.size, name ∉ graph.eventNamesFrom 0) ∧
      compiled.graph.functionNames.take graph.nodes.size = graph.functionNames := by
  obtain ⟨final, folded, rfl⟩ := compile_eq_ok ran
  have labelled := Environment.keeps_foldlM_compileNode _
    (PassState.Labelled graph.functionNames .empty) PassState.Labelled.compileNode folded
    (PassState.labelled_start registry options graph)
  obtain ⟨made, names, nodup, apart⟩ := labelled.made
  have since : final.1.graph.eventNamesFrom graph.nodes.size = made.reduceOption := by
    rw [eventNamesFrom, names, ← length_functionNames, List.drop_left]
  refine ⟨?_, ?_, ?_⟩
  · rwa [since]
  · intro name member
    rw [since, List.reduceOption_mem_iff] at member
    rw [eventNamesFrom, List.drop_zero, List.reduceOption_mem_iff]
    exact apart name member
  · rw [names, ← length_functionNames, List.take_left]

end Graph

/-! An event of the graph has the name that the pass would give to its first. -/

namespace CrossedLegs

def heralded : Graph :=
  { graph with nodes := graph.nodes.push ⟨⟨3⟩, .event "Tick" "RigPreEvaluateEvent0", [], none⟩ }

theorem compiles_heralded :
    ∃ compiled, heralded.compile registry (.standard "Rig") .standard = .ok compiled ∧
      compiled.graph.eventNamesFrom 4 = ["RigPreEvaluateEvent0_1", "RigPreEvaluateEvent1"] := by
  have names : ((heralded.compile registry (.standard "Rig") .standard).toOption.map
      (·.graph.eventNamesFrom 4)) = some ["RigPreEvaluateEvent0_1", "RigPreEvaluateEvent1"] := by
    decide +kernel
  cases ran : heralded.compile registry (.standard "Rig") .standard with
  | error error =>
      rw [ran] at names
      cases names
  | ok compiled =>
      rw [ran] at names
      exact ⟨compiled, rfl, Option.some.inj names⟩

theorem compile_names_events_heralded :
    ∃ compiled, heralded.compile registry (.standard "Rig") .standard = .ok compiled ∧
      compiled.graph.eventNamesFrom 4 = ["RigPreEvaluateEvent0_1", "RigPreEvaluateEvent1"] ∧
      "RigPreEvaluateEvent0" ∈ heralded.eventNamesFrom 0 ∧
      (compiled.graph.eventNamesFrom 4).Nodup ∧
      (∀ name ∈ compiled.graph.eventNamesFrom 4, name ∉ heralded.eventNamesFrom 0) ∧
      compiled.graph.functionNames.take 4 = heralded.functionNames := by
  obtain ⟨compiled, ran, names⟩ := compiles_heralded
  exact ⟨compiled, ran, names, by decide, Graph.compile_names_events ran⟩

end CrossedLegs

end RigLowering
