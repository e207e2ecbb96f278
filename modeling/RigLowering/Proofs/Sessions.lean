import RigLowering.Proofs.MissingPins
import RigLowering.Proofs.Rebuilding

namespace RigLowering

namespace Graph

/-- A step that is of no matter to some node keeps the graph regular. -/
theorem keeps_regular_of_heeds {α : Type} {step : Edit α} {node : NodeId}
    (heeds : ∀ base, Keeps (Heeds node base) step) : Keeps Regular step :=
  fun graph regular => (heeds graph graph ⟨regular, .refl node graph⟩).toRegular

theorem exists_other (node : NodeId) : ∃ other, node ≠ other :=
  ⟨⟨node.index + 1⟩, fun same => Nat.succ_ne_self _ (congrArg NodeId.index same).symm⟩

end Graph

namespace Edit

open RigLowering.Graph

variable {registry : RigRegistry} {graph : Graph}

theorem rebuild_keeps_regular (node : NodeId) : Keeps Regular (rebuild registry node) := by
  obtain ⟨other, different⟩ := exists_other node
  exact keeps_regular_of_heeds fun _ => rebuild_heeds different

theorem resettle_keeps_regular (node : NodeId) (change : EvaluatorSettings → EvaluatorSettings) :
    Keeps Regular (do modifySettings node change; rebuild registry node : Edit Nat) := by
  obtain ⟨other, different⟩ := exists_other node
  exact keeps_regular_of_heeds fun _ => resettle_heeds different change

theorem spawnEvaluator_keeps_regular (rigType : Option String) :
    Keeps Regular (spawnEvaluator registry rigType) := by
  refine (addNode_keeps_regular _).bind fun node => Keeps.bind ?_ fun _ => keeps_pure _
  exact (keeps_query _).bind fun _ => (Composed.layPins node _).keeps_regular

theorem spawnEvaluator_heeds {base : Graph} {node : NodeId} {rigType : Option String}
    (heeds : Heeds node base graph) (different : NodeId.mk graph.nodes.size ≠ node) :
    Heeds node base (spawnEvaluator registry rigType graph).2 := by
  have pushed : Heeds node base (graph.pushNode (.evaluator
      { EvaluatorSettings.unset with rigType })) :=
    heeds.pushNode (fun same => different (congrArg NodeId.mk same.symm)) _
  have rest : Keeps (Heeds node base) (do
      layEvaluatorPins registry ⟨graph.nodes.size⟩
      return (⟨graph.nodes.size⟩ : NodeId)) :=
    (layEvaluatorPins_heeds different).bind fun _ => keeps_pure _
  exact rest _ pushed

theorem spawnEvaluator_carries (built : registry.Built) (regular : graph.Regular)
    (rigType : Option String) :
    ∃ after, Yields (spawnEvaluator registry rigType) graph ⟨graph.nodes.size⟩ after ∧
      after.Evaluates ⟨graph.nodes.size⟩ { EvaluatorSettings.unset with rigType } ∧
      after.Carries ⟨graph.nodes.size⟩
        (registry.evaluatorPins { EvaluatorSettings.unset with rigType }) := by
  have pushed : (graph.pushNode (.evaluator { EvaluatorSettings.unset with rigType })).Evaluates
      ⟨graph.nodes.size⟩ { EvaluatorSettings.unset with rigType } := by
    rw [evaluates_iff, node?_pushNode, if_pos rfl]
    rfl
  have bare (id : PinId) : ¬ (graph.pushNode (.evaluator
      { EvaluatorSettings.unset with rigType })).Owns ⟨graph.nodes.size⟩ id := by
    rintro ⟨face, found, owner⟩
    obtain ⟨data, live, _⟩ := regular.owned (show graph.face? id = some face from found)
    rw [owner] at live
    exact Nat.lt_irrefl _ (lt_size_of_node? live)
  obtain ⟨after, laid, _, rest⟩ :=
    layEvaluatorPins_carries built (regular.pushNode _) pushed bare
  exact ⟨after, yields_bind_iff.mpr ⟨_, _, addNode_apply _ graph,
    yields_bind_iff.mpr ⟨(), after, laid, yields_pure_iff.mpr ⟨rfl, rfl⟩⟩⟩, rest⟩

end Edit

namespace AuthoringCommand

open RigLowering.Graph

/-- The evaluator whose pins the command makes anew, if it is one. -/
def rebuilds (graph : Graph) : AuthoringCommand → Option NodeId
  | spawnEvaluator _ => some ⟨graph.nodes.size⟩
  | bindRigType node _ => some node
  | rebuild node => some node
  | enableField node field direction enabled =>
      match graph.settings node with
      | .ok settings =>
          if (settings.disabled direction).contains field = enabled then some node else none
      | .error _ => none
  | _ => none

variable {registry : RigRegistry} {graph : Graph} {command : AuthoringCommand} {node : NodeId}
  {settings : EvaluatorSettings}

theorem leaves_spawnEvaluator (rigType : Option String) :
    (spawnEvaluator rigType).leaves registry graph =
      (Edit.spawnEvaluator registry rigType graph).2 :=
  discard_snd ..

theorem leaves_bindRigType (node : NodeId) (rigType : Option String) :
    (bindRigType node rigType).leaves registry graph =
      ((do Edit.modifySettings node (·.bindTo rigType); Edit.rebuild registry node : Edit Nat)
        graph).2 :=
  discard_snd ..

theorem leaves_rebuild (node : NodeId) :
    (rebuild node).leaves registry graph = (Edit.rebuild registry node graph).2 :=
  discard_snd ..

theorem leaves_enableField (registry : RigRegistry) (graph : Graph) (node : NodeId)
    (field : String) (direction : PinDirection) (enabled : Bool) :
    ((enableField node field direction enabled).rebuilds graph = none ∧
        (enableField node field direction enabled).leaves registry graph = graph) ∨
      ((enableField node field direction enabled).rebuilds graph = some node ∧
        ∃ change, (enableField node field direction enabled).leaves registry graph =
          ((do Edit.modifySettings node change; Edit.rebuild registry node : Edit Nat)
            graph).2) := by
  simp only [leaves, AuthoringCommand.edit, rebuilds]
  rw [show (discard (Edit.enableField registry node field direction enabled)).run graph =
    discard (Edit.enableField registry node field direction enabled) graph from rfl, discard_snd]
  unfold Edit.enableField
  rw [bind_apply, Edit.query_apply]
  cases graph.settings node with
  | error error => exact .inl ⟨rfl, rfl⟩
  | ok settings =>
      simp only
      by_cases changes : (settings.disabled direction).contains field = enabled
      · rw [if_pos changes, if_neg (not_not_intro changes)]
        exact .inr ⟨rfl, _, rfl⟩
      · rw [if_neg changes, if_pos changes]
        exact .inl ⟨rfl, rfl⟩

theorem leaves_regular (regular : graph.Regular) (command : AuthoringCommand) :
    (command.leaves registry graph).Regular := by
  cases command with
  | change call => exact call.keeps_regular graph regular
  | spawnEvaluator rigType =>
      rw [leaves_spawnEvaluator]
      exact Edit.spawnEvaluator_keeps_regular rigType graph regular
  | bindRigType node rigType =>
      rw [leaves_bindRigType]
      exact Edit.resettle_keeps_regular node _ graph regular
  | enableField node field direction enabled =>
      rcases leaves_enableField registry graph node field direction enabled with
        ⟨_, same⟩ | ⟨_, change, resettled⟩
      · rw [same]
        exact regular
      · rw [resettled]
        exact Edit.resettle_keeps_regular node change graph regular
  | rebuild node =>
      rw [leaves_rebuild]
      exact Edit.rebuild_keeps_regular node graph regular
  | setDefaultValue pin value =>
      exact (Edit.Composed.changeLiterals pin (fun _ => value) (·.defaultObject)).keeps_regular
        graph regular
  | setDefaultObject pin object =>
      exact (Edit.Composed.changeLiterals pin (·.defaultValue) (fun _ => object)).keeps_regular
        graph regular
  | mergeHierarchy other => exact regular.mapHierarchy (·.merge other)

/-- A permitted call leaves every evaluator alone. -/
theorem change_heeds (regular : graph.Regular) (call : StructuralEdit)
    (spares : call.Spares graph) (evaluates : (call.change.leaves graph).Evaluates node settings) :
    Heeds node graph (call.change.leaves graph) := by
  have heeds : Heeds node graph graph := ⟨regular, .refl node graph⟩
  cases call with
  | addNode kind =>
      refine heeds.pushNode (fun same => ?_) kind
      obtain ⟨data, found, read⟩ := evaluates
      rw [show (StructuralEdit.addNode kind).change.leaves graph = graph.pushNode kind from rfl,
        node?_pushNode, if_pos same] at found
      cases found
      cases (spares : kind.settings? = none).symm.trans read
  | addPin other direction pinType name =>
      refine (Edit.addPin_heeds ?_ direction pinType name).discard graph heeds
      rintro rfl
      have kept := @Edit.addPin_reflects_evaluates graph other other direction pinType name settings
      rw [← discard_snd] at kept
      exact spares settings (kept evaluates)
  | removePin pin =>
      refine Edit.removePin_heeds heeds fun owns => ?_
      have kept : Keeps (fun later => later.Sound ∧
          ∀ other, (later.node? other).map (·.kind) = (graph.node? other).map (·.kind))
            (Edit.removePin pin) := Edit.removePin_keeps_kinds pin
      obtain ⟨_, kinds⟩ := kept graph ⟨regular.toSound, fun _ => rfl⟩
      have before : graph.Evaluates node settings := by
        rw [evaluates_iff, ← kinds]
        exact evaluates_iff.mp evaluates
      exact spares node owns settings before
  | link a b => exact Edit.link_heeds a b graph heeds
  | unlink a b => exact Edit.unlink_heeds a b graph heeds
  | unlinkPin pin => exact Edit.unlinkPin_heeds pin graph heeds
  | unlinkNode other => exact Edit.keeps_unlinkNode Edit.unlinkPin_heeds other graph heeds
  | transferLinks origin dest =>
      exact Edit.keeps_transferLinks Edit.unlink_heeds Edit.link_heeds origin dest graph heeds

/-- Only the evaluator whose pins are made anew can lose any. -/
theorem leaves_heeds (regular : graph.Regular) (permitted : command.Permitted registry graph)
    (different : command.rebuilds graph ≠ some node)
    (evaluates : (command.leaves registry graph).Evaluates node settings) :
    Heeds node graph (command.leaves registry graph) := by
  have heeds : Heeds node graph graph := ⟨regular, .refl node graph⟩
  cases command with
  | change call => exact change_heeds regular call permitted evaluates
  | spawnEvaluator rigType =>
      rw [leaves_spawnEvaluator]
      exact Edit.spawnEvaluator_heeds heeds fun same => different (congrArg some same)
  | bindRigType other rigType =>
      rw [leaves_bindRigType]
      exact Edit.resettle_heeds (fun same => different (congrArg some same)) _ graph heeds
  | enableField other field direction enabled =>
      rcases leaves_enableField registry graph other field direction enabled with
        ⟨_, same⟩ | ⟨rebuilt, change, resettled⟩
      · rw [same]
        exact heeds
      · rw [resettled]
        exact Edit.resettle_heeds (fun same => different (rebuilt.trans (congrArg some same)))
          change graph heeds
  | rebuild other =>
      rw [leaves_rebuild]
      exact Edit.rebuild_heeds (fun same => different (congrArg some same)) graph heeds
  | setDefaultValue pin value =>
      exact Edit.changeLiterals_heeds pin (fun _ => value) (·.defaultObject) graph heeds
  | setDefaultObject pin object =>
      exact Edit.changeLiterals_heeds pin (·.defaultValue) (fun _ => object) graph heeds
  | mergeHierarchy other =>
      exact heeds.of_frame ⟨rfl, rfl, fun _ => rfl, fun _ => rfl⟩
        (regular.mapHierarchy (·.merge other))

/-- The evaluator whose pins are made anew has those that its settings ask for. -/
theorem leaves_carries (built : registry.Built) (regular : graph.Regular)
    (rebuilt : command.rebuilds graph = some node)
    (evaluates : (command.leaves registry graph).Evaluates node settings) :
    (command.leaves registry graph).Carries node (registry.evaluatorPins settings) := by
  have resettled {change : EvaluatorSettings → EvaluatorSettings}
      (same : command.leaves registry graph = ((do
        Edit.modifySettings node change; Edit.rebuild registry node : Edit Nat) graph).2) :
      (command.leaves registry graph).Carries node (registry.evaluatorPins settings) := by
    rw [same] at evaluates ⊢
    rcases graph.isPrimitive_or_evaluates node with primitive | ⟨former, before⟩
    · rw [Edit.resettle_of_primitive primitive] at evaluates
      exact (primitive settings evaluates).elim
    · obtain ⟨lost, after, done, asked, carries⟩ :=
        Edit.resettle_carries built regular before change
      rw [show (do Edit.modifySettings node change; Edit.rebuild registry node : Edit Nat) graph = _
        from done] at evaluates ⊢
      rwa [evaluates.unique asked]
  cases command with
  | spawnEvaluator rigType =>
      cases rebuilt
      obtain ⟨after, done, asked, carries⟩ := Edit.spawnEvaluator_carries built regular rigType
      rw [leaves_spawnEvaluator,
        show Edit.spawnEvaluator registry rigType graph = _ from done] at evaluates ⊢
      rwa [evaluates.unique asked]
  | bindRigType other rigType =>
      cases rebuilt
      exact resettled (leaves_bindRigType node rigType)
  | enableField other field direction enabled =>
      rcases leaves_enableField registry graph other field direction enabled with
        ⟨none, _⟩ | ⟨same, change, changed⟩
      · cases none.symm.trans rebuilt
      · cases same.symm.trans rebuilt
        exact resettled changed
  | rebuild other =>
      cases rebuilt
      rw [leaves_rebuild] at evaluates ⊢
      rcases graph.isPrimitive_or_evaluates node with primitive | ⟨former, before⟩
      · exact (Edit.rebuild_keeps_primitive regular primitive settings evaluates).elim
      · obtain ⟨lost, after, done, _, asked, carries⟩ :=
          Edit.rebuild_carries built regular before
        rw [show Edit.rebuild registry node graph = _ from done] at evaluates ⊢
        rwa [evaluates.unique asked]
  | _ => cases rebuilt

end AuthoringCommand

/-! A session interleaves the registering of classes with the authoring of one graph.  Beside what
it works on it remembers by which registry the pins of each evaluator were last made. -/

structure Session where
  registry : RigRegistry
  graph : Graph
  maker : NodeId → RigRegistry

namespace Session

open RigLowering.Graph

def start (base name : String) (parentClass : Option String) : Session :=
  ⟨.empty base, .empty name parentClass, fun _ => .empty base⟩

/-- A class that is refused leaves the registry as it was. -/
def register (session : Session) (rigClass : RigClass) : Session :=
  match session.registry.register rigClass with
  | .ok registry => { session with registry }
  | .error _ => session

def author (session : Session) (command : AuthoringCommand) : Session where
  registry := session.registry
  graph := command.leaves session.registry session.graph
  maker := fun node =>
    if command.rebuilds session.graph = some node then session.registry else session.maker node

def compile (session : Session) (options : PassOptions) : Except Error CompiledGraph :=
  session.graph.compile session.registry (.standard session.registry.base) options

inductive Reached : Session → Prop
  | start (base name : String) (parentClass : Option String) :
      Reached (start base name parentClass)
  | register {session : Session} (reached : session.Reached) (rigClass : RigClass) :
      Reached (session.register rigClass)
  | author {session : Session} (reached : session.Reached) (command : AuthoringCommand)
      (permitted : command.Permitted session.registry session.graph) :
      Reached (session.author command)

/-- The class of the evaluator was registered only after its pins had been made. -/
def Outdated (session : Session) (node : NodeId) : Prop :=
  ∃ settings rigType, session.graph.Evaluates node settings ∧
    session.registry.rigType? settings = some rigType ∧ ¬ (session.maker node).contains rigType

/-- An evaluator whose class was known when its pins were made has its sub-rig output. -/
structure Equipped (session : Session) : Prop where
  built : session.registry.Built
  regular : session.graph.Regular
  rig : ∀ {node settings rigType}, session.graph.Evaluates node settings →
    (session.maker node).rigType? settings = some rigType →
    ∃ id, session.graph.Port node .output PinName.rig id

variable {session : Session}

theorem Equipped.start (base name : String) (parentClass : Option String) :
    (start base name parentClass).Equipped where
  built := .empty base
  regular := empty_regular name parentClass
  rig := fun ⟨_, found, _⟩ => by cases found

theorem Equipped.register (equipped : session.Equipped) (rigClass : RigClass) :
    (session.register rigClass).Equipped := by
  unfold Session.register
  cases registered : session.registry.register rigClass with
  | error error => exact equipped
  | ok next => exact ⟨.register equipped.built registered, equipped.regular, equipped.rig⟩

theorem Equipped.author (equipped : session.Equipped) {command : AuthoringCommand}
    (permitted : command.Permitted session.registry session.graph) :
    (session.author command).Equipped where
  built := equipped.built
  regular := AuthoringCommand.leaves_regular equipped.regular command
  rig := by
    intro node settings rigType evaluates bound
    unfold Session.author at bound
    simp only at bound
    by_cases rebuilt : command.rebuilds session.graph = some node
    · rw [if_pos rebuilt] at bound
      have carries :=
        AuthoringCommand.leaves_carries equipped.built equipped.regular rebuilt evaluates
      obtain ⟨id, hasPin⟩ := carries.exists_pin (RigRegistry.rig_mem_evaluatorPins bound)
      exact ⟨id, hasPin.port⟩
    · rw [if_neg rebuilt] at bound
      have heeds := AuthoringCommand.leaves_heeds equipped.regular permitted rebuilt evaluates
      obtain ⟨id, face, found, owner, rest⟩ :=
        equipped.rig (heeds.evaluates_iff.mp evaluates) bound
      exact ⟨id, face, heeds.face found owner, owner, rest⟩

theorem Reached.equipped (reached : session.Reached) : session.Equipped := by
  induction reached with
  | start base name parentClass => exact .start base name parentClass
  | register _ rigClass ih => exact ih.register rigClass
  | author _ command permitted ih => exact ih.author permitted

/-- Whatever the order of registering and authoring, a pass over the graph ends for want of a pin
only at an evaluator whose class came too late for its pins, and what it wants is the sub-rig
output. -/
theorem compile_misses_outdated_rig {options : PassOptions} {node missing : NodeId} {name : String}
    (reached : session.Reached)
    (failed : session.compile options = .error (.aborted node (.missingPin missing name))) :
    missing = node ∧ name = PinName.rig ∧ session.Outdated node := by
  have equipped := reached.equipped
  obtain ⟨target, found, same, rig, absent⟩ := compile_eq_missingPin equipped.regular failed
  obtain ⟨_, data, settings, rigType, live, read, _, bound, rfl⟩ := Environment.target_eq_inr found
  refine ⟨same, rig, settings, rigType, ⟨data, live, read⟩, bound, fun known => ?_⟩
  have boundThen : (session.maker node).rigType? settings = some rigType :=
    Option.filter_eq_some_iff.mpr ⟨(Option.filter_eq_some_iff.mp bound).1, known⟩
  obtain ⟨id, port⟩ := equipped.rig ⟨data, live, read⟩ boundThen
  exact absent id port

end Session

/-! An evaluator that is there before its class is. -/

namespace LateLeg

def session : Session :=
  ((Session.start "Rig" "LateLeg" none).author (.spawnEvaluator (some "Leg"))).register
    ⟨"Leg", "Rig", []⟩

theorem reached : session.Reached :=
  ((Session.Reached.start "Rig" "LateLeg" none).author (.spawnEvaluator (some "Leg"))
    trivial).register ⟨"Leg", "Rig", []⟩

/-- Where a pass ended for want of a pin, and of which. -/
def missed? {α : Type} : Except Error α → Option (NodeId × NodeId × String)
  | .error (.aborted node (.missingPin missing name)) => some (node, missing, name)
  | _ => none

theorem eq_error_of_missed? {α : Type} {result : Except Error α} {node missing : NodeId}
    {name : String} (found : missed? result = some (node, missing, name)) :
    result = .error (.aborted node (.missingPin missing name)) := by
  unfold missed? at found
  split at found
  · cases found
    rfl
  · cases found

theorem aborts :
    session.compile .standard = .error (.aborted ⟨0⟩ (.missingPin ⟨0⟩ PinName.rig)) :=
  eq_error_of_missed? (by decide +kernel)

theorem misses_late_rig : session.Reached ∧
    session.compile .standard = .error (.aborted ⟨0⟩ (.missingPin ⟨0⟩ PinName.rig)) ∧
    session.Outdated ⟨0⟩ :=
  ⟨reached, aborts, (Session.compile_misses_outdated_rig reached aborts).2.2⟩

/-- A pass can end for want of a pin, though nothing but registering and authoring went before. -/
theorem not_always_supplied : ¬ ∀ session : Session, session.Reached →
    ∀ options node missing name,
      session.compile options ≠ .error (.aborted node (.missingPin missing name)) :=
  fun supplied => supplied session reached .standard ⟨0⟩ ⟨0⟩ PinName.rig aborts

end LateLeg

end RigLowering
