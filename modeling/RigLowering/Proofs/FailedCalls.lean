import RigLowering.Proofs.PinLayout

namespace RigLowering

namespace AuthoringCommand

open RigLowering.Graph

/-- The command makes an evaluator, or is meant for one. -/
def Configures : AuthoringCommand → Prop
  | spawnEvaluator _ => True
  | bindRigType .. => True
  | enableField .. => True
  | rebuild _ => True
  | _ => False

/-- The command rebuilds a node that is no evaluator but has pins. -/
def Strips (graph : Graph) : AuthoringCommand → Prop
  | rebuild node => graph.IsPrimitive node ∧
      ∃ data, graph.node? node = some data ∧ data.pins ≠ []
  | _ => False

variable {registry : RigRegistry} {graph : Graph} {command : AuthoringCommand} {node : NodeId}

/-- A call that fails was meant for an evaluator and names a node that is none. -/
theorem Configures.primitive_of_failed (configures : command.Configures) (built : registry.Built)
    (regular : graph.Regular) {error : Error}
    (failed : (command.edit registry graph).1 = .error error) :
    ∃ node, graph.IsPrimitive node ∧ ((∃ rigType, command = bindRigType node rigType) ∨
      (∃ field direction enabled, command = enableField node field direction enabled) ∨
        command = rebuild node) := by
  have unaddressed : ¬ command.Addresses graph := by
    intro addresses
    obtain ⟨value, after, succeeded⟩ := addresses.succeeds built regular
    rw [show command.edit registry graph = _ from succeeded] at failed
    cases failed
  cases command with
  | spawnEvaluator rigType => exact (unaddressed trivial).elim
  | bindRigType node rigType =>
      exact ⟨node, not_exists.mp unaddressed, .inl ⟨rigType, rfl⟩⟩
  | enableField node field direction enabled =>
      exact ⟨node, not_exists.mp unaddressed, .inr (.inl ⟨field, direction, enabled, rfl⟩)⟩
  | rebuild node => exact ⟨node, not_exists.mp unaddressed, .inr (.inr rfl)⟩
  | _ => exact configures.elim

theorem leaves_bindRigType_of_primitive (primitive : graph.IsPrimitive node)
    (rigType : Option String) : (bindRigType node rigType).leaves registry graph = graph := by
  rw [leaves_bindRigType]
  exact Edit.resettle_of_primitive primitive _

theorem leaves_enableField_of_primitive (primitive : graph.IsPrimitive node) (field : String)
    (direction : PinDirection) (enabled : Bool) :
    (enableField node field direction enabled).leaves registry graph = graph := by
  rcases leaves_enableField registry graph node field direction enabled with
    ⟨_, same⟩ | ⟨_, change, resettled⟩
  · exact same
  · rw [resettled]
    exact Edit.resettle_of_primitive primitive change

theorem leaves_rebuild_of_absent (absent : graph.node? node = none) :
    (rebuild node).leaves registry graph = graph := by
  rw [leaves_rebuild, Edit.rebuild, bind_apply, Edit.node_apply, Graph.node, absent]

theorem leaves_rebuild_eq_self_iff (regular : graph.Regular) (primitive : graph.IsPrimitive node) :
    (rebuild node).leaves registry graph = graph ↔ ¬ (rebuild node).Strips graph := by
  cases found : graph.node? node with
  | none =>
      refine iff_of_true (leaves_rebuild_of_absent found) ?_
      rintro ⟨_, data, live, _⟩
      rw [found] at live
      cases live
  | some data =>
      obtain ⟨failed, cleared⟩ := Edit.rebuild_of_primitive regular primitive found
      rw [leaves_rebuild, failed]
      constructor
      · rintro same ⟨_, _, live, pinned⟩
        cases found.symm.trans live
        rw [show (Edit.takePins data.pins graph).2 = graph from same] at cleared
        exact pinned (cleared.pins_eq_nil found)
      · intro bare
        have unpinned : data.pins = [] :=
          Classical.byContradiction fun pinned => bare ⟨primitive, data, found, pinned⟩
        rw [unpinned]
        rfl

end AuthoringCommand

namespace Graph

variable {registry : RigRegistry} {graph : Graph} {command : AuthoringCommand}

/-- A call on evaluators that fails leaves the graph exactly as it was, unless it rebuilds a node
that is no evaluator and has pins.  Such a node loses its pins, and these their links, before it is
found to be none. -/
theorem WellFormed.failed_call_effect (built : registry.Built) (wellFormed : graph.WellFormed)
    (configures : command.Configures) {error : Error}
    (failed : (command.edit registry graph).1 = .error error) :
    (command.leaves registry graph = graph ↔ ¬ command.Strips graph) ∧
      ∀ node data, command = .rebuild node → graph.node? node = some data →
        graph.Cleared (command.leaves registry graph) data.pins := by
  have regular := wellFormed_iff_regular.mp wellFormed
  obtain ⟨node, primitive, ⟨rigType, rfl⟩ | ⟨field, direction, enabled, rfl⟩ | rfl⟩ :=
    configures.primitive_of_failed built regular failed
  · exact ⟨iff_of_true (AuthoringCommand.leaves_bindRigType_of_primitive primitive rigType) id,
      fun _ _ other => by cases other⟩
  · exact ⟨iff_of_true (AuthoringCommand.leaves_enableField_of_primitive primitive ..) id,
      fun _ _ other => by cases other⟩
  · refine ⟨AuthoringCommand.leaves_rebuild_eq_self_iff regular primitive, ?_⟩
    rintro _ data ⟨⟩ found
    obtain ⟨stripped, cleared⟩ := Edit.rebuild_of_primitive regular primitive found
    rw [AuthoringCommand.leaves_rebuild, stripped]
    exact cleared

end Graph

/-! A stage that is fed by a dial and is no evaluator. -/

namespace FedStage

open RigLowering.Graph

def commands : List GraphCommand :=
  [.edit (.addNode (.primitive "dial")), .edit (.addNode (.primitive "stage")),
    .edit (.addPin ⟨0⟩ .output .float "value"), .edit (.addPin ⟨1⟩ .input .float "value"),
    .edit (.link ⟨0⟩ ⟨1⟩)]

def graph : Graph := commands.foldl GraphCommand.apply (.empty "FedStage" none)

theorem isWellFormed : graph.WellFormed := by
  have start : (Graph.empty "FedStage" none).Safeguarded :=
    ⟨empty_regular "FedStage" none, .inl rfl⟩
  exact wellFormed_iff_regular.mpr (start.foldl_apply commands).regular

theorem primitive : graph.IsPrimitive ⟨1⟩ := by
  intro settings evaluates
  rw [evaluates_iff] at evaluates
  cases evaluates

theorem rebuild_fails : ((AuthoringCommand.rebuild ⟨1⟩).edit (.empty "Rig") graph).1 =
    .error (.notComposite ⟨1⟩) := rfl

/-- Binding the stage to a class fails and changes nothing.  Rebuilding it fails as well, but takes
its pin. -/
theorem strips_stage : graph.WellFormed ∧
    (AuthoringCommand.bindRigType ⟨1⟩ none).leaves (.empty "Rig") graph = graph ∧
      (AuthoringCommand.rebuild ⟨1⟩).leaves (.empty "Rig") graph ≠ graph ∧
        graph.Cleared ((AuthoringCommand.rebuild ⟨1⟩).leaves (.empty "Rig") graph) [⟨1⟩] := by
  have built : (RigRegistry.empty "Rig").Built := .empty "Rig"
  have binds : (AuthoringCommand.bindRigType ⟨1⟩ none).Configures := trivial
  have rebuilds : (AuthoringCommand.rebuild ⟨1⟩).Configures := trivial
  have refused : ((AuthoringCommand.bindRigType ⟨1⟩ none).edit (.empty "Rig") graph).1 =
      .error (.notComposite ⟨1⟩) := rfl
  obtain ⟨bound, _⟩ := isWellFormed.failed_call_effect built binds refused
  obtain ⟨rebuilt, cleared⟩ := isWellFormed.failed_call_effect built rebuilds rebuild_fails
  exact ⟨isWellFormed, bound.mpr id,
    fun same => rebuilt.mp same ⟨primitive, _, rfl, by decide⟩, cleared ⟨1⟩ _ rfl rfl⟩

/-- A call that fails may change the graph. -/
theorem not_always_spared : ¬ ∀ (registry : RigRegistry) (graph : Graph)
    (command : AuthoringCommand) (error : Error), registry.Built → graph.WellFormed →
      command.Configures → (command.edit registry graph).1 = .error error →
        command.leaves registry graph = graph := by
  intro spared
  have rebuilds : (AuthoringCommand.rebuild ⟨1⟩).Configures := trivial
  have same := spared _ graph _ _ (.empty "Rig") isWellFormed rebuilds rebuild_fails
  have links : ((AuthoringCommand.rebuild ⟨1⟩).leaves (.empty "Rig") graph).linkCount = 0 := rfl
  rw [same] at links
  exact absurd links (by decide)

end FedStage

end RigLowering
