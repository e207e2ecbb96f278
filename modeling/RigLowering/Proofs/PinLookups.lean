import RigLowering.Proofs.Spawning
import RigLowering.Pass.Expansion

namespace RigLowering

/-! A pass ends where a node lacks a pin that it has to have.  What follows is about the steps that
never look for a pin in vain, and about the lookups of the others. -/

/-- If this is an error, then not that of a missing pin. -/
def Finds {α : Type} (answer : Except Error α) : Prop :=
  ∀ node name, answer ≠ .error (.missingPin node name)

section Steps

variable {σ α β : Type}

/-- The step never looks for a pin in vain. -/
def Certain (step : ExceptT Error (StateM σ) α) : Prop :=
  ∀ before, Finds (step before).1

theorem finds_ok (value : α) : Finds (.ok value) :=
  fun _ _ same => by cases same

theorem Finds.bind {answer : Except Error α} {next : α → Except Error β} (finds : Finds answer)
    (nextFinds : ∀ value, Finds (next value)) : Finds (answer >>= next) := by
  intro node name failed
  rcases bind_eq_error_iff.mp failed with first | ⟨value, _, second⟩
  · exact finds node name first
  · exact nextFinds value node name second

theorem Finds.mapM {answer : α → Except Error β} (finds : ∀ value, Finds (answer value))
    (values : List α) : Finds (values.mapM answer) := by
  induction values with
  | nil => exact finds_ok _
  | cons value rest ih =>
      rw [List.mapM_cons]
      exact (finds value).bind fun _ => ih.bind fun _ => finds_ok _

variable {step first : ExceptT Error (StateM σ) α} {next : α → ExceptT Error (StateM σ) β}

theorem certain_pure (value : α) : Certain (pure value : ExceptT Error (StateM σ) α) :=
  fun _ => finds_ok value

theorem certain_throw {error : Error} (other : Finds (.error error : Except Error α)) :
    Certain (throw error : ExceptT Error (StateM σ) α) :=
  fun _ => other

theorem certain_modify (change : σ → σ) :
    Certain (modify change : ExceptT Error (StateM σ) PUnit) :=
  fun _ => finds_ok _

theorem Certain.bind (certain : Certain first) (nextCertain : ∀ value, Certain (next value)) :
    Certain (first >>= next) := by
  intro state
  have finds := certain state
  rw [bind_apply]
  cases ran : first state with
  | mk result after =>
      rw [ran] at finds
      cases result with
      | ok value => exact nextCertain value after
      | error error => exact fun node name same => finds node name (by cases same; rfl)

theorem Certain.forM {step : α → ExceptT Error (StateM σ) PUnit}
    (certain : ∀ value, Certain (step value)) (values : List α) : Certain (values.forM step) := by
  induction values with
  | nil => exact certain_pure _
  | cons value rest ih => exact (certain value).bind fun _ => ih

theorem Certain.mapM {step : α → ExceptT Error (StateM σ) β}
    (certain : ∀ value, Certain (step value)) (values : List α) : Certain (values.mapM step) := by
  induction values with
  | nil => exact certain_pure _
  | cons value rest ih =>
      rw [List.mapM_cons]
      exact (certain value).bind fun _ => ih.bind fun _ => certain_pure _

theorem Certain.discard (certain : Certain step) :
    Certain (Functor.discard step : ExceptT Error (StateM σ) PUnit) :=
  certain.bind fun _ => certain_pure _

end Steps

namespace Graph

/-- The node has a pin for each of the specifications. -/
def Bears (graph : Graph) (node : NodeId) (specs : List PinSpec) : Prop :=
  ∀ spec ∈ specs, ∃ id, graph.Port node spec.direction spec.name id

variable (graph : Graph)

theorem finds_node (id : NodeId) : Finds (graph.node id) := by
  unfold Graph.node
  split
  · exact finds_ok _
  · exact fun _ _ same => by cases same

theorem finds_pin (id : PinId) : Finds (graph.pin id) := by
  unfold Graph.pin
  split
  · exact finds_ok _
  · exact fun _ _ same => by cases same

theorem finds_findPinAmong (name : String) (direction : Option PinDirection) (ids : List PinId) :
    Finds (graph.findPinAmong name direction ids) := by
  induction ids with
  | nil => exact finds_ok _
  | cons id rest ih =>
      refine (graph.finds_pin id).bind fun pin => ?_
      split
      · exact finds_ok _
      · exact ih

theorem finds_findPin? (node : NodeId) (name : String) (direction : Option PinDirection) :
    Finds (graph.findPin? node name direction) :=
  (graph.finds_node node).bind fun _ => graph.finds_findPinAmong name direction _

theorem finds_pinsToward (node : NodeId) (direction : PinDirection) :
    Finds (graph.pinsToward node direction) :=
  (graph.finds_node node).bind fun _ =>
    (Finds.mapM (fun id => (graph.finds_pin id).bind fun _ => finds_ok _) _).bind fun _ =>
      finds_ok _

theorem finds_checkTypes (output input : Pin) : Finds (graph.checkTypes output input) := by
  unfold checkTypes
  split
  · exact finds_ok _
  · exact fun _ _ same => by cases same

theorem finds_checkJoin (a b : PinId) : Finds (graph.checkJoin a b) := by
  refine (graph.finds_pin a).bind fun first => (graph.finds_pin b).bind fun second => ?_
  split
  · exact fun _ _ same => by cases same
  · split
    · exact fun _ _ same => by cases same
    · split
      · exact graph.finds_checkTypes _ _
      · exact graph.finds_checkTypes _ _

/-- A lookup misses what it was for, and only where the node has no such pin. -/
theorem findPin_eq_missingPin {graph : Graph} (sound : graph.Sound) {node missing : NodeId}
    {name other : String} {direction : PinDirection}
    (failed : graph.findPin node name (some direction) = .error (.missingPin missing other)) :
    missing = node ∧ other = name ∧ ∀ id, ¬ graph.Port node direction name id := by
  rcases bind_eq_error_iff.mp failed with search | ⟨answer, searched, decided⟩
  · exact (graph.finds_findPin? node name _ missing other search).elim
  cases answer with
  | some found => cases decided
  | none =>
      cases decided
      obtain ⟨data, read, among⟩ := bind_eq_ok_iff.mp searched
      refine ⟨rfl, rfl, fun id ⟨face, found, owned, directed, named⟩ => ?_⟩
      have member := (sound.mem_pins_iff (node_eq_ok_iff.mp read)).mpr ⟨face, found, owned⟩
      exact findPinAmong_eq_ok among id member face found ⟨named, directed⟩

theorem finds_findPin {graph : Graph} (sound : graph.Sound) {node : NodeId} {name : String}
    {direction : PinDirection} {id : PinId} (port : graph.Port node direction name id) :
    Finds (graph.findPin node name (some direction)) :=
  fun _ _ failed => (findPin_eq_missingPin sound failed).2.2 id port

end Graph

namespace Edit

theorem certain_query {α : Type} {answer : Graph → Except Error α}
    (finds : ∀ graph, Finds (answer graph)) : Certain (query answer) :=
  finds

theorem certain_node (id : NodeId) : Certain (Edit.node id) :=
  certain_query fun graph => graph.finds_node id

theorem certain_pin (id : PinId) : Certain (Edit.pin id) :=
  certain_query fun graph => graph.finds_pin id

theorem certain_modifyNode (id : NodeId) (change : Node → Node) :
    Certain (modifyNode id change) :=
  (certain_node id).bind fun _ => certain_modify _

theorem certain_modifyPin (id : PinId) (change : Pin → Pin) : Certain (modifyPin id change) :=
  (certain_pin id).bind fun _ => certain_modify _

theorem certain_addPin (node : NodeId) (direction : PinDirection) (pinType : PinType)
    (name : String) : Certain (addPin node direction pinType name) := by
  refine (certain_query fun graph => graph.finds_findPin? node name _).bind fun found => ?_
  cases found with
  | some id => exact certain_throw fun _ _ same => by cases same
  | none =>
      exact Certain.bind (fun _ => finds_ok _) fun _ => (certain_modify _).bind fun _ =>
        (certain_modifyNode _ _).bind fun _ => certain_pure _

theorem certain_layPins (node : NodeId) (specs : List PinSpec) : Certain (layPins node specs) :=
  Certain.forM (fun _ => Certain.discard ((certain_addPin node _ _ _).bind fun _ =>
    (certain_modifyPin _ _).bind fun _ => certain_pure _)) specs

theorem certain_spawnNode (kind : NodeKind) (source : NodeId) : Certain (spawnNode kind source) :=
  (certain_node source).bind fun _ => Certain.bind (fun _ => finds_ok _) fun _ =>
    (certain_modifyNode _ _).bind fun _ => certain_pure _

theorem certain_link (a b : PinId) : Certain (link a b) := by
  refine (certain_query fun graph => graph.finds_checkJoin a b).bind fun _ =>
    (certain_pin a).bind fun pin => ?_
  split
  · exact certain_pure _
  · exact (certain_modifyPin _ _).bind fun _ => certain_modifyPin _ _

theorem certain_unlink (a b : PinId) : Certain (unlink a b) :=
  (certain_modifyPin _ _).bind fun _ => certain_modifyPin _ _

theorem certain_transferLinks (origin dest : PinId) : Certain (transferLinks origin dest) := by
  unfold transferLinks
  split
  · exact certain_pure _
  · refine (certain_pin origin).bind fun source => (certain_pin dest).bind fun target => ?_
    split
    · exact Certain.forM (fun far => (certain_unlink origin far).bind fun _ =>
        certain_link dest far) _
    · exact certain_throw fun _ _ same => by cases same

theorem certain_unlinkNode (node : NodeId) : Certain (unlinkNode node) :=
  (certain_node node).bind fun _ => Certain.forM (fun id => (certain_pin id).bind fun _ =>
    (certain_modifyPin _ _).bind fun _ => Certain.forM (fun _ => certain_modifyPin _ _) _) _

end Edit

namespace Pass

theorem certain_edit {α : Type} {change : Edit α} (certain : Certain change) :
    Certain (edit change) :=
  fun before => certain before.graph

theorem certain_query {α : Type} {answer : Graph → Except Error α}
    (finds : ∀ graph, Finds (answer graph)) : Certain (Pass.query answer) :=
  certain_edit finds

theorem certain_link (a b : PinId) : Certain (edit (.link a b)) :=
  certain_edit (Edit.certain_link a b)

theorem certain_modifyPin (id : PinId) (change : Pin → Pin) :
    Certain (edit (.modifyPin id change)) :=
  certain_edit (Edit.certain_modifyPin id change)

theorem certain_transferPin (origin dest : PinId) : Certain (transferPin origin dest) := by
  refine certain_edit ((Edit.certain_transferLinks origin dest).bind fun _ =>
    (Edit.certain_pin origin).bind fun source => ?_)
  split
  · exact Edit.certain_modifyPin _ _
  · exact certain_pure _

theorem certain_takeIndex : Certain takeIndex := by
  intro before node name failed
  have taken : before.indices.take.1 = .error (.missingPin node name) := failed
  unfold IndexAllocator.take at taken
  split at taken
  · cases taken
  · cases taken

theorem certain_spawnNode (kind : NodeKind) (source : NodeId) : Certain (spawnNode kind source) :=
  (certain_edit (Edit.certain_spawnNode kind source)).bind fun _ => (certain_modify _).bind fun _ =>
    certain_pure _

theorem certain_spawn (kind : NodeKind) (pins : List PinSpec) (source : NodeId) :
    Certain (spawn kind pins source) :=
  (certain_spawnNode kind source).bind fun _ => (certain_edit (Edit.certain_layPins _ _)).bind
    fun _ => certain_pure _

theorem certain_spawnEvent (source : NodeId) (signature name : String) :
    Certain (spawnEvent source signature name) :=
  (Certain.bind (fun _ => finds_ok _) fun _ => certain_spawnNode _ source).bind fun _ =>
    (certain_edit (Edit.certain_layPins _ _)).bind fun _ => certain_pure _

end Pass

namespace Target

theorem certain_parameters (env : Environment) (target : Target) (direction : PinDirection) :
    Certain (target.parameters env direction) := by
  have parameterCertain (id : PinId) : Certain (target.parameter? env direction id) := by
    refine (Pass.certain_edit (Edit.certain_pin id)).bind fun pin => ?_
    split
    · split
      · exact certain_pure _
      · exact (certain_modify _).bind fun _ => certain_pure _
    · exact certain_pure _
  exact (Pass.certain_query fun graph => graph.finds_pinsToward target.node direction).bind fun _ =>
    (Certain.mapM parameterCertain _).bind fun _ => certain_pure _

end Target

end RigLowering
