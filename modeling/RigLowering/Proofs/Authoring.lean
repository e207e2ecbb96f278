import RigLowering.Proofs.GraphCommands
import RigLowering.Proofs.LinkTyping
import RigLowering.Proofs.Registration

namespace RigLowering

namespace PinFace

/-- What such a pin is made from. -/
def spec (face : PinFace) : PinSpec :=
  ⟨face.direction, face.pinType, face.name⟩

end PinFace

namespace Graph

/-- The node is an evaluator with the settings. -/
def Evaluates (graph : Graph) (node : NodeId) (settings : EvaluatorSettings) : Prop :=
  ∃ data, graph.node? node = some data ∧ data.kind.settings? = some settings

end Graph

theorem NodeKind.settings?_mapSettings (kind : NodeKind)
    (change : EvaluatorSettings → EvaluatorSettings) :
    (kind.mapSettings change).settings? = kind.settings?.map change := by
  cases kind <;> rfl

namespace RigRegistry

/-- A registered class that has a parent in the hierarchy has the one it was registered with. -/
def AgreesWith (registry : RigRegistry) (hierarchy : ClassHierarchy) : Prop :=
  ∀ {name rigClass parent}, registry.find? name = some rigClass →
    hierarchy.parent? name = some parent → parent = rigClass.parent

end RigRegistry

namespace Graph

/-! What authoring keeps of a graph.  The pins of the evaluator `pending`, if there is one, may
still be those of its former settings. -/

structure Tended (registry : RigRegistry) (pending : Option NodeId) (graph : Graph) : Prop
    extends Regular graph, Typed graph where
  agrees : registry.AgreesWith graph.hierarchy
  active : ∀ {node settings}, graph.Evaluates node settings → settings.inert = false
  conforms : ∀ {node settings id face}, pending ≠ some node → graph.Evaluates node settings →
    graph.face? id = some face → face.owner = node → face.spec ∈ registry.evaluatorPins settings

section Tended

variable {registry : RigRegistry} {pending : Option NodeId} {before after graph : Graph}

theorem Evaluates.unique {node : NodeId} {settings other : EvaluatorSettings}
    (evaluates : graph.Evaluates node settings) (otherwise : graph.Evaluates node other) :
    settings = other := by
  obtain ⟨data, found, read⟩ := evaluates
  obtain ⟨otherData, otherFound, otherRead⟩ := otherwise
  rw [found] at otherFound
  cases otherFound
  exact Option.some.inj (read.symm.trans otherRead)

/-- Nothing is asked of a graph beyond what its pins and evaluators were before. -/
theorem Tended.narrow (tended : before.Tended registry pending) (regular : after.Regular)
    (typed : after.Typed) (hierarchy : after.hierarchy = before.hierarchy)
    (evaluates : ∀ {node settings}, after.Evaluates node settings →
      before.Evaluates node settings)
    (faces : ∀ {id face}, after.face? id = some face → before.face? id = some face) :
    after.Tended registry pending where
  toRegular := regular
  fits := typed.fits
  agrees := fun registered found => tended.agrees registered (hierarchy ▸ found)
  active := fun holds => tended.active (evaluates holds)
  conforms := fun settled holds found owner =>
    tended.conforms settled (evaluates holds) (faces found) owner

theorem Tended.of_frame (tended : before.Tended registry pending) (frame : before.SameFrame after)
    (regular : after.Regular) (typed : after.Typed)
    (hierarchy : after.hierarchy = before.hierarchy) : after.Tended registry pending := by
  refine tended.narrow regular typed hierarchy ?_ fun found => frame.face _ ▸ found
  rintro node settings ⟨data, found, read⟩
  exact ⟨data, frame.node _ ▸ found, read⟩

theorem Tended.empty (registry : RigRegistry) (name : String) (parentClass : Option String) :
    (Graph.empty name parentClass).Tended registry none where
  toRegular := empty_regular name parentClass
  fits := fun member => by cases member
  agrees := fun _ found => by cases found
  active := fun ⟨_, found, _⟩ => by cases found
  conforms := fun _ ⟨_, found, _⟩ => by cases found

theorem Tended.pushNode (tended : graph.Tended registry pending) {kind : NodeKind}
    (fresh : ∀ settings, kind.settings? = some settings → settings.inert = false) :
    (graph.pushNode kind).Tended registry pending where
  toRegular := tended.toRegular.pushNode kind
  fits := (tended.toTyped.pushNode kind).fits
  agrees := tended.agrees
  active := by
    rintro node settings ⟨data, found, read⟩
    rw [node?_pushNode] at found
    split at found
    · cases found
      exact fresh settings read
    · exact tended.active ⟨data, found, read⟩
  conforms := by
    rintro node settings id face settled ⟨data, found, read⟩ faceFound rfl
    obtain ⟨owner, ownerFound, _⟩ := tended.owned faceFound
    rw [node?_pushNode, if_neg (Nat.ne_of_lt (lt_size_of_node? ownerFound))] at found
    exact tended.conforms settled ⟨data, found, read⟩ faceFound rfl

theorem evaluates_of_withPin {node other : NodeId} {settings : EvaluatorSettings}
    {direction : PinDirection} {pinType : PinType} {name : String}
    (evaluates : (graph.withPin node direction pinType name).Evaluates other settings) :
    graph.Evaluates other settings := by
  obtain ⟨later, laterFound, read⟩ := evaluates
  rw [node?_withPin] at laterFound
  split at laterFound
  · obtain ⟨earlier, earlierFound, rfl⟩ := Option.map_eq_some_iff.mp laterFound
    exact ⟨earlier, earlierFound, read⟩
  · exact ⟨later, laterFound, read⟩

theorem Tended.withPin (tended : graph.Tended registry pending) {node : NodeId} {data : Node}
    {spec : PinSpec} (found : graph.node? node = some data)
    (free : ∀ pin ∈ data.pins, ∀ face, graph.face? pin = some face →
      ¬ (face.name = spec.name ∧ face.direction = spec.direction))
    (asked : ∀ settings, data.kind.settings? = some settings →
      spec ∈ registry.evaluatorPins settings) :
    (graph.withPin node spec.direction spec.pinType spec.name).Tended registry pending := by
  refine ⟨tended.toRegular.withPin found free, (tended.toTyped.withPin found).fits,
    tended.agrees, fun holds => tended.active (evaluates_of_withPin holds), ?_⟩
  intro other settings id face settled holds faceFound owner
  rw [face?_withPin] at faceFound
  split at faceFound
  · cases faceFound
    obtain ⟨earlier, earlierFound, read⟩ := evaluates_of_withPin holds
    rw [show other = node from owner.symm, found] at earlierFound
    cases earlierFound
    exact asked settings read
  · exact tended.conforms settled (evaluates_of_withPin holds) faceFound owner

/-- The pins of an evaluator may be the wrong ones once its settings have changed. -/
theorem Tended.withSettings (tended : graph.Tended registry none) (node : NodeId)
    {change : EvaluatorSettings → EvaluatorSettings}
    (keepsInert : ∀ settings, (change settings).inert = settings.inert) :
    (graph.changeNode node (·.mapSettings change)).Tended registry (some node) where
  toRegular := tended.toRegular.withSettings node change
  fits := (durable_typed.withSettings node change tended.toTyped).fits
  agrees := tended.agrees
  active := by
    rintro other settings ⟨data, found, read⟩
    rw [node?_changeNode] at found
    split at found
    · obtain ⟨earlier, earlierFound, rfl⟩ := Option.map_eq_some_iff.mp found
      change (earlier.kind.mapSettings change).settings? = some settings at read
      rw [NodeKind.settings?_mapSettings] at read
      obtain ⟨former, formerRead, rfl⟩ := Option.map_eq_some_iff.mp read
      rw [keepsInert]
      exact tended.active ⟨earlier, earlierFound, formerRead⟩
    · exact tended.active ⟨data, found, read⟩
  conforms := by
    rintro other settings id face settled ⟨data, found, read⟩
    rw [node?_changeNode, if_neg fun same => settled (congrArg some same)] at found
    exact tended.conforms (by simp) ⟨data, found, read⟩

theorem Tended.removed {id : PinId} (tended : before.Tended registry pending)
    (removed : before.Removed after id) (hierarchy : after.hierarchy = before.hierarchy) :
    after.Tended registry pending := by
  refine tended.narrow (tended.toRegular.removed removed) (tended.toTyped.removed removed hierarchy)
    hierarchy ?_ fun found => (removed.face?_eq_some_iff.mp found).2
  rintro node settings ⟨data, found, read⟩
  rw [removed.node] at found
  obtain ⟨earlier, earlierFound, rfl⟩ := Option.map_eq_some_iff.mp found
  exact ⟨earlier, earlierFound, read⟩

theorem Tended.mergeHierarchy (tended : graph.Tended registry pending) {other : ClassHierarchy}
    (agrees : registry.AgreesWith other) :
    (graph.mapHierarchy (·.merge other)).Tended registry pending where
  toRegular := tended.toRegular.mapHierarchy _
  fits := (tended.toTyped.mergeHierarchy other).fits
  agrees := by
    intro name rigClass parent registered found
    change (graph.hierarchy.merge other).parent? name = some parent at found
    rw [ClassHierarchy.parent?, ClassHierarchy.merge, NameMap.find?_merge] at found
    rcases Option.or_eq_some_iff.mp found with own | ⟨_, merged⟩
    · exact tended.agrees registered own
    · exact agrees registered merged
  active := tended.active
  conforms := tended.conforms

/-- An evaluator without pins has none of its former ones. -/
theorem Tended.settle {node : NodeId} (tended : graph.Tended registry (some node))
    (bare : ∀ id face, graph.face? id = some face → face.owner ≠ node) :
    graph.Tended registry none where
  toRegular := tended.toRegular
  fits := tended.fits
  agrees := tended.agrees
  active := tended.active
  conforms := by
    intro other settings id face _ evaluates found owner
    refine tended.conforms ?_ evaluates found owner
    intro same
    exact bare id face found (owner.trans (Option.some.inj same).symm)

theorem Tended.unsettle (tended : graph.Tended registry none) (node : NodeId) :
    graph.Tended registry (some node) where
  toRegular := tended.toRegular
  fits := tended.fits
  agrees := tended.agrees
  active := tended.active
  conforms := fun _ => tended.conforms (by simp)

end Tended

end Graph

namespace Edit

open RigLowering.Graph

variable {registry : RigRegistry} {pending : Option NodeId}

theorem link_keeps_tended (a b : PinId) : Keeps (Tended registry pending) (link a b) :=
  fun graph tended => tended.of_frame (link_frame a b graph)
    (link_keeps_regular a b graph tended.toRegular) (link_keeps_typed a b graph tended.toTyped)
    ((kept_hierarchy graph.hierarchy).link a b graph rfl)

theorem unlink_keeps_tended (a b : PinId) : Keeps (Tended registry pending) (unlink a b) :=
  fun graph tended => tended.of_frame (unlink_frame a b graph)
    (unlink_keeps_regular a b graph tended.toRegular) (unlink_keeps_typed a b graph tended.toTyped)
    ((kept_hierarchy graph.hierarchy).unlink a b graph rfl)

theorem unlinkPin_keeps_tended (id : PinId) : Keeps (Tended registry pending) (unlinkPin id) :=
  fun graph tended => tended.of_frame (unlinkPin_frame tended.toSound id)
    (unlinkPin_keeps_regular id graph tended.toRegular)
    (unlinkPin_keeps_typed id graph tended.toTyped)
    ((kept_hierarchy graph.hierarchy).unlinkPin id graph rfl)

theorem changeLiterals_keeps_tended (id : PinId) (value object : Pin → Option String) :
    Keeps (Tended registry pending) (modifyPin id (·.setLiterals value object)) := by
  intro graph tended
  rw [modifyPin_apply]
  cases graph.pin? id with
  | none => exact tended
  | some pin =>
      exact tended.of_frame (graph.changePin_sameFrame id fun _ => rfl)
        (kept_regular.withLiterals id value object tended.toRegular)
        (durable_typed.withLiterals id value object tended.toTyped) rfl

theorem removePin_keeps_tended (id : PinId) : Keeps (Tended registry pending) (removePin id) := by
  intro graph tended
  have hierarchy := @removePin_keeps_hierarchy graph.hierarchy id graph rfl
  rcases removePin_cases tended.toSound id with ⟨_, _, failed⟩ | ⟨after, done, removed⟩
  · rw [failed]
    exact tended
  · rw [done] at hierarchy ⊢
    exact tended.removed removed hierarchy

theorem addPin_tended {graph : Graph} (tended : graph.Tended registry pending) {node : NodeId}
    {spec : PinSpec} (asked : ∀ settings, graph.Evaluates node settings →
      spec ∈ registry.evaluatorPins settings) :
    (addPin node spec.direction spec.pinType spec.name graph).2.Tended registry pending := by
  rcases addPin_cases node spec.direction spec.pinType spec.name graph with
    ⟨_, failed⟩ | ⟨data, found, free, added⟩
  · rw [failed]
    exact tended
  · rw [added]
    exact tended.withPin found free fun settings read => asked settings ⟨data, found, read⟩

theorem addPin_keeps_evaluates {other node : NodeId} {settings : EvaluatorSettings}
    (direction : PinDirection) (pinType : PinType) (name : String) :
    Keeps (Evaluates · node settings) (addPin other direction pinType name) := by
  rintro graph ⟨data, found, read⟩
  rcases addPin_cases other direction pinType name graph with ⟨_, failed⟩ | ⟨_, _, _, added⟩
  · rw [failed]
    exact ⟨data, found, read⟩
  · rw [added]
    unfold Evaluates
    rw [node?_withPin, found]
    split
    · exact ⟨_, rfl, read⟩
    · exact ⟨_, rfl, read⟩

/-- Nothing becomes an evaluator by a new pin. -/
theorem addPin_reflects_evaluates {graph : Graph} {other node : NodeId} {direction : PinDirection}
    {pinType : PinType} {name : String} {settings : EvaluatorSettings}
    (evaluates : (addPin other direction pinType name graph).2.Evaluates node settings) :
    graph.Evaluates node settings := by
  rcases addPin_cases other direction pinType name graph with ⟨_, failed⟩ | ⟨_, _, _, added⟩
  · rwa [failed] at evaluates
  · rw [added] at evaluates
    exact evaluates_of_withPin evaluates

theorem changeLiterals_keeps_evaluates {node : NodeId} {settings : EvaluatorSettings} (id : PinId)
    (value object : Pin → Option String) :
    Keeps (Evaluates · node settings) (modifyPin id (·.setLiterals value object)) := by
  rintro graph ⟨data, found, read⟩
  rw [modifyPin_apply]
  cases graph.pin? id with
  | none => exact ⟨data, found, read⟩
  | some pin => exact ⟨data, found, read⟩

theorem layPins_keeps_tended {node : NodeId} {settings : EvaluatorSettings} {specs : List PinSpec}
    (asked : ∀ spec ∈ specs, spec ∈ registry.evaluatorPins settings) :
    Keeps (fun graph => graph.Tended registry pending ∧ graph.Evaluates node settings)
      (layPins node specs) := by
  unfold layPins
  induction specs with
  | nil => exact keeps_pure _
  | cons spec rest ih =>
      have layKeeps : Keeps (fun graph => graph.Tended registry pending ∧
          graph.Evaluates node settings) (layPin node spec) := by
        rw [layPin_eq]
        refine Keeps.bind ?_ fun pin => Keeps.bind ?_ fun _ => keeps_pure _
        · rintro graph ⟨tended, evaluates⟩
          refine ⟨addPin_tended tended ?_, addPin_keeps_evaluates _ _ _ graph evaluates⟩
          intro other otherwise
          rw [← evaluates.unique otherwise]
          exact asked spec (by simp)
        · rintro graph ⟨tended, evaluates⟩
          exact ⟨changeLiterals_keeps_tended _ _ _ graph tended,
            changeLiterals_keeps_evaluates _ _ _ graph evaluates⟩
      exact layKeeps.discard.bind fun _ =>
        ih fun other member => asked other (List.mem_cons_of_mem _ member)

theorem settings_eq_ok_iff {graph : Graph} {node : NodeId} {settings : EvaluatorSettings} :
    graph.settings node = .ok settings ↔ graph.Evaluates node settings := by
  unfold Graph.settings Evaluates
  rw [bind_eq_ok_iff]
  constructor
  · rintro ⟨data, read, answered⟩
    refine ⟨data, node_eq_ok_iff.mp read, ?_⟩
    split at answered
    · next found =>
        cases answered
        exact found
    · cases answered
  · rintro ⟨data, found, read⟩
    refine ⟨data, node_eq_ok_iff.mpr found, ?_⟩
    rw [read]
    rfl

theorem layEvaluatorPins_keeps_tended (node : NodeId) :
    Keeps (Tended registry pending) (layEvaluatorPins registry node) := by
  intro graph tended
  unfold layEvaluatorPins
  rw [bind_apply, query_apply]
  cases read : graph.settings node with
  | error error => exact tended
  | ok settings =>
      exact (layPins_keeps_tended (fun _ member => member) graph
        ⟨tended, settings_eq_ok_iff.mp read⟩).1

theorem spawnEvaluator_keeps_tended (rigType : Option String) :
    Keeps (Tended registry pending) (spawnEvaluator registry rigType) := by
  refine Keeps.bind ?_ fun node => (layEvaluatorPins_keeps_tended node).bind fun _ => keeps_pure _
  intro graph tended
  rw [addNode_apply]
  exact tended.pushNode fun settings read => by cases read; rfl

/-- Pins that are there can be taken, each of them once.  The links that a pin is taken with are
among those that it had. -/
theorem takePins_apply {ids : List PinId} {graph : Graph} (sound : graph.Sound)
    (nodup : ids.Nodup) (live : ∀ id ∈ ids, ∃ face, graph.face? id = some face) :
    ∃ old after, takePins ids graph = (.ok old, after) ∧ graph.Cleared after ids ∧
      ∀ pin ∈ old, ∀ far ∈ pin.links, ∃ id ∈ ids, far ∈ graph.links id := by
  unfold takePins
  induction ids generalizing graph with
  | nil => exact ⟨[], graph, rfl, .refl graph, fun _ member => by cases member⟩
  | cons id rest ih =>
      obtain ⟨fresh, restNodup⟩ := List.nodup_cons.mp nodup
      obtain ⟨face, found⟩ := live id (by simp)
      obtain ⟨pin, pinLive, _, pinLinks⟩ := exists_pin?_of_face? found
      rcases removePin_cases sound id with ⟨_, absent, _⟩ | ⟨middle, done, removed⟩
      · rw [found] at absent
        cases absent
      obtain ⟨old, after, taken, cleared, links⟩ := ih (sound.removed removed) restNodup (by
        intro other member
        obtain ⟨otherFace, otherFound⟩ := live other (List.mem_cons_of_mem _ member)
        refine ⟨otherFace, removed.face?_eq_some_iff.mpr ⟨?_, otherFound⟩⟩
        rintro rfl
        exact fresh member)
      refine ⟨pin :: old, after, ?_, removed.cleared cleared, ?_⟩
      · rw [List.mapM_cons, bind_apply, bind_apply, pin_apply, Graph.pin, pinLive]
        simp only
        rw [bind_apply, done]
        change (List.mapM _ rest >>= fun others => pure (pin :: others) : Edit (List Pin)) middle =
          _
        rw [bind_apply, taken]
        rfl
      · refine List.forall_mem_cons.mpr ⟨fun far member => ⟨id, by simp, ?_⟩, ?_⟩
        · rwa [← pinLinks]
        · intro other member far linked
          obtain ⟨own, listed, before⟩ := links other member far linked
          exact ⟨own, List.mem_cons_of_mem _ listed, (removed.mem_links_iff.mp before).1⟩

section Restoring

variable {property : Graph → Prop} (linkKept : ∀ a b, Keeps property (link a b))
  (literalsKept : ∀ id value object, Keeps property (modifyPin id (·.setLiterals value object)))

include linkKept in
theorem keeps_relink (new far : PinId) : Keeps property (relink new far) := by
  refine Keeps.tryCatch ((linkKept new far).bind fun _ => keeps_pure _) fun error => ?_
  split
  · exact keeps_pure _
  · exact keeps_throw _

include literalsKept in
theorem keeps_restoreLiteral (new : PinId) (old : Pin) :
    Keeps property (restoreLiteral new old) := by
  refine (keeps_query _).bind fun pin => ?_
  split
  · exact literalsKept new (fun _ => old.defaultValue) (·.defaultObject)
  · exact keeps_pure _

include linkKept literalsKept in
theorem keeps_restorePin (node : NodeId) (old : Pin) : Keeps property (restorePin node old) := by
  refine (keeps_query _).bind fun found => ?_
  cases found with
  | none => exact keeps_pure _
  | some new =>
      exact (keeps_restoreLiteral literalsKept new old).bind fun _ =>
        (Keeps.mapM (keeps_relink linkKept new) _).bind fun _ => keeps_pure _

end Restoring

theorem restorePin_keeps_tended (node : NodeId) (old : Pin) :
    Keeps (Tended registry pending) (restorePin node old) :=
  keeps_restorePin link_keeps_tended changeLiterals_keeps_tended node old

theorem rebuild_tended {graph : Graph} {node : NodeId} {data : Node}
    (tended : graph.Tended registry (some node)) (found : graph.node? node = some data) :
    (rebuild registry node graph).2.Tended registry none := by
  have takeKeeps : Keeps (Tended registry (some node)) (takePins data.pins) :=
    Keeps.mapM (fun id => (keeps_query _).bind fun _ => (removePin_keeps_tended id).bind fun _ =>
      keeps_pure _) _
  obtain ⟨old, after, taken, cleared, _⟩ :=
    takePins_apply tended.toSound (tended.pinsNodup found) (by
    intro id member
    obtain ⟨face, faceFound, _⟩ := tended.listed found member
    exact ⟨face, faceFound⟩)
  have bare (id : PinId) (face : PinFace) (left : after.face? id = some face) :
      face.owner ≠ node := by
    rw [cleared.face] at left
    split at left
    · cases left
    · next unlisted =>
        rintro rfl
        exact unlisted ((tended.mem_pins_iff found).mpr ⟨face, left, rfl⟩)
  have afterTended := takeKeeps.holds_after taken tended
  have restKeeps : Keeps (Tended registry none) (do
      layEvaluatorPins registry node
      return Graph.total (← old.mapM (restorePin node))) :=
    (layEvaluatorPins_keeps_tended node).bind fun _ =>
      (Keeps.mapM (restorePin_keeps_tended node) _).bind fun _ => keeps_pure _
  unfold rebuild
  rw [bind_apply, node_apply, Graph.node, found]
  simp only
  rw [bind_apply, taken]
  exact restKeeps after (afterTended.settle bare)

theorem rebuild_keeps_tended (node : NodeId) :
    Keeps (Tended registry none) (rebuild registry node) := by
  intro graph tended
  cases found : graph.node? node with
  | none =>
      unfold rebuild
      rw [bind_apply, node_apply, Graph.node, found]
      exact tended
  | some data => exact rebuild_tended (tended.unsettle node) found

/-- New settings and the pins that they ask for come together. -/
theorem resettle_keeps_tended (node : NodeId) {change : EvaluatorSettings → EvaluatorSettings}
    (keepsInert : ∀ settings, (change settings).inert = settings.inert) :
    Keeps (Tended registry none) (do modifySettings node change; rebuild registry node) := by
  intro graph tended
  unfold modifySettings
  rw [bind_apply, bind_apply, query_apply]
  cases read : graph.settings node with
  | error error => exact tended
  | ok settings =>
      obtain ⟨data, found, _⟩ := settings_eq_ok_iff.mp read
      simp only
      rw [modifyNode_apply, found]
      simp only
      apply rebuild_tended (tended.withSettings node keepsInert)
      rw [node?_changeNode, if_pos rfl, found]
      rfl

theorem bindRigType_keeps_tended (node : NodeId) (rigType : Option String) :
    Keeps (Tended registry none) (bindRigType registry node rigType) :=
  resettle_keeps_tended node fun _ => rfl

theorem enableField_keeps_tended (node : NodeId) (field : String) (direction : PinDirection)
    (enabled : Bool) :
    Keeps (Tended registry none) (enableField registry node field direction enabled) := by
  refine (keeps_query _).bind fun settings => ?_
  simp only
  split
  · exact keeps_pure _
  · refine resettle_keeps_tended node fun settings => ?_
    cases direction with
    | input => rfl
    | output => rfl

end Edit

/-! What an author may do to a graph.  A call that fails leaves what it has done. -/

inductive AuthoringCommand
  | change (call : StructuralEdit)
  | spawnEvaluator (rigType : Option String)
  | bindRigType (node : NodeId) (rigType : Option String)
  | enableField (node : NodeId) (field : String) (direction : PinDirection) (enabled : Bool)
  | rebuild (node : NodeId)
  | setDefaultValue (pin : PinId) (value : Option String)
  | setDefaultObject (pin : PinId) (object : Option String)
  | mergeHierarchy (other : ClassHierarchy)

namespace Graph

def IsPrimitive (graph : Graph) (node : NodeId) : Prop :=
  ∀ settings, ¬ graph.Evaluates node settings

theorem isPrimitive_or_evaluates (graph : Graph) (node : NodeId) :
    graph.IsPrimitive node ∨ ∃ settings, graph.Evaluates node settings :=
  (Classical.em _).symm.imp_left not_exists.mp

end Graph

namespace StructuralEdit

/-- Evaluators, and the pins of evaluators, are made and removed by other means. -/
def Spares (graph : Graph) : StructuralEdit → Prop
  | addNode kind => kind.settings? = none
  | addPin node .. => graph.IsPrimitive node
  | removePin pin => ∀ node, graph.Owns node pin → graph.IsPrimitive node
  | _ => True

end StructuralEdit

namespace AuthoringCommand

def edit (registry : RigRegistry) : AuthoringCommand → Edit Unit
  | change call => call.change.edit
  | spawnEvaluator rigType => discard (Edit.spawnEvaluator registry rigType)
  | bindRigType node rigType => discard (Edit.bindRigType registry node rigType)
  | enableField node field direction enabled =>
      discard (Edit.enableField registry node field direction enabled)
  | rebuild node => discard (Edit.rebuild registry node)
  | setDefaultValue pin value => Edit.modifyPin pin fun pin => { pin with defaultValue := value }
  | setDefaultObject pin object =>
      Edit.modifyPin pin fun pin => { pin with defaultObject := object }
  | mergeHierarchy other => modify (Graph.mapHierarchy (·.merge other))

def leaves (registry : RigRegistry) (graph : Graph) (command : AuthoringCommand) : Graph :=
  ((command.edit registry).run graph).2

def Permitted (registry : RigRegistry) (graph : Graph) : AuthoringCommand → Prop
  | change call => call.Spares graph
  | mergeHierarchy other => registry.AgreesWith other
  | _ => True

end AuthoringCommand

namespace Graph

/-- The graph has come about by what an author may do. -/
inductive Authored (registry : RigRegistry) : Graph → Prop
  | start (name : String) (parentClass : Option String) : Authored registry (empty name parentClass)
  | step {graph : Graph} (authored : Authored registry graph) (command : AuthoringCommand)
      (permitted : command.Permitted registry graph) :
      Authored registry (command.leaves registry graph)

variable {registry : RigRegistry} {graph : Graph}

theorem Tended.change (tended : graph.Tended registry none) (call : StructuralEdit)
    (spares : call.Spares graph) : (call.change.leaves graph).Tended registry none := by
  cases call with
  | addNode kind =>
      refine tended.pushNode fun settings read => ?_
      rw [show kind.settings? = none from spares] at read
      cases read
  | addPin node direction pinType name =>
      have added := @Edit.addPin_tended registry none graph tended node ⟨direction, pinType, name⟩
        fun settings evaluates => (spares settings evaluates).elim
      rwa [← discard_snd] at added
  | removePin pin => exact Edit.removePin_keeps_tended pin graph tended
  | link a b => exact Edit.link_keeps_tended a b graph tended
  | unlink a b => exact Edit.unlink_keeps_tended a b graph tended
  | unlinkPin pin => exact Edit.unlinkPin_keeps_tended pin graph tended
  | unlinkNode node =>
      exact Edit.keeps_unlinkNode Edit.unlinkPin_keeps_tended node graph tended
  | transferLinks origin dest =>
      exact Edit.keeps_transferLinks Edit.unlink_keeps_tended Edit.link_keeps_tended origin dest
        graph tended

theorem Tended.leaves (tended : graph.Tended registry none) (command : AuthoringCommand)
    (permitted : command.Permitted registry graph) :
    (command.leaves registry graph).Tended registry none := by
  cases command with
  | change call => exact tended.change call permitted
  | spawnEvaluator rigType => exact (Edit.spawnEvaluator_keeps_tended rigType).discard graph tended
  | bindRigType node rigType =>
      exact (Edit.bindRigType_keeps_tended node rigType).discard graph tended
  | enableField node field direction enabled =>
      exact (Edit.enableField_keeps_tended node field direction enabled).discard graph tended
  | rebuild node => exact (Edit.rebuild_keeps_tended node).discard graph tended
  | setDefaultValue pin value =>
      exact Edit.changeLiterals_keeps_tended pin (fun _ => value) (·.defaultObject) graph tended
  | setDefaultObject pin object =>
      exact Edit.changeLiterals_keeps_tended pin (·.defaultValue) (fun _ => object) graph tended
  | mergeHierarchy other => exact tended.mergeHierarchy permitted

theorem Authored.tended (authored : graph.Authored registry) : graph.Tended registry none := by
  induction authored with
  | start name parentClass => exact .empty registry name parentClass
  | step _ command permitted ih => exact ih.leaves command permitted

end Graph

end RigLowering
