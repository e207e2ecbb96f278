import RigLowering.Pass.Expansion
import RigLowering.Proofs.Feasibility

namespace RigLowering

/-! A refused link spoils an expansion, and any other error ends the pass.  What follows is about
steps that are not spoilt, whether they succeed or not. -/

/-- If this is an error, then not that of a refused link. -/
def Firm {α : Type} (answer : Except Error α) : Prop :=
  ∀ error, answer = .error error → ¬ error.isRecoverable

section Steps

variable {σ α β : Type}

/-- The step is never spoilt. -/
def Sturdy (step : ExceptT Error (StateM σ) α) : Prop :=
  ∀ before, Firm (step before).1

/-- From `before` the step is not spoilt, and where it succeeds it leaves what `post` says. -/
def Unspoilt (step : ExceptT Error (StateM σ) α) (before : σ) (post : α → σ → Prop) : Prop :=
  match step before with
  | (.ok value, after) => post value after
  | (.error error, _) => ¬ error.isRecoverable

variable {step first : ExceptT Error (StateM σ) α} {next : α → ExceptT Error (StateM σ) β}
  {before : σ} {post mid : α → σ → Prop} {last : β → σ → Prop}

theorem firm_ok (value : α) : Firm (.ok value) :=
  fun _ same => by cases same

theorem firm_error {error : Error} (final : error.isRecoverable = false) :
    Firm (.error error : Except Error α) := by
  rintro _ ⟨⟩ recoverable
  rw [final] at recoverable
  cases recoverable

theorem Firm.bind {answer : Except Error α} {next : α → Except Error β} (firm : Firm answer)
    (nextFirm : ∀ value, Firm (next value)) : Firm (answer >>= next) := by
  intro error failed
  rcases bind_eq_error_iff.mp failed with first | ⟨value, _, second⟩
  · exact firm error first
  · exact nextFirm value error second

theorem Firm.mapM {answer : α → Except Error β} (firm : ∀ value, Firm (answer value))
    (values : List α) : Firm (values.mapM answer) := by
  induction values with
  | nil => exact firm_ok _
  | cons value rest ih =>
      rw [List.mapM_cons]
      exact (firm value).bind fun _ => ih.bind fun _ => firm_ok _

theorem Sturdy.unspoilt (sturdy : Sturdy step)
    (leaves : ∀ {value after}, Yields step before value after → post value after) :
    Unspoilt step before post := by
  have firm := sturdy before
  unfold Unspoilt
  cases ran : step before with
  | mk result after =>
      rw [ran] at firm
      cases result with
      | ok value => exact leaves ran
      | error error => exact firm error rfl

theorem unspoilt_pure {value : α} (holds : post value before) :
    Unspoilt (pure value : ExceptT Error (StateM σ) α) before post :=
  holds

theorem Unspoilt.bind (unspoilt : Unspoilt first before mid)
    (nextUnspoilt : ∀ value after, mid value after → Unspoilt (next value) after last) :
    Unspoilt (first >>= next) before last := by
  unfold Unspoilt at unspoilt ⊢
  rw [bind_apply]
  cases ran : first before with
  | mk result after =>
      rw [ran] at unspoilt
      cases result with
      | ok value => exact nextUnspoilt value after unspoilt
      | error error => exact unspoilt

theorem Unspoilt.bind_sturdy (unspoilt : Unspoilt first before mid)
    (nextSturdy : ∀ value, Sturdy (next value)) :
    Unspoilt (first >>= next) before fun _ _ => True :=
  unspoilt.bind fun value _ _ => (nextSturdy value).unspoilt fun _ => trivial

theorem Unspoilt.mono (unspoilt : Unspoilt step before mid)
    (implied : ∀ value after, mid value after → post value after) :
    Unspoilt step before post := by
  unfold Unspoilt at unspoilt ⊢
  cases ran : step before with
  | mk result after =>
      rw [ran] at unspoilt
      cases result with
      | ok value => exact implied value after unspoilt
      | error error => exact unspoilt

/-- What is known of every success may be added. -/
theorem Unspoilt.of_yields (unspoilt : Unspoilt step before mid)
    (leaves : ∀ {value after}, Yields step before value after → post value after) :
    Unspoilt step before post := by
  unfold Unspoilt at unspoilt ⊢
  cases ran : step before with
  | mk result after =>
      rw [ran] at unspoilt
      cases result with
      | ok value => exact leaves ran
      | error error => exact unspoilt

theorem sturdy_pure (value : α) : Sturdy (pure value : ExceptT Error (StateM σ) α) :=
  fun _ => firm_ok value

theorem sturdy_throw {error : Error} (final : error.isRecoverable = false) :
    Sturdy (throw error : ExceptT Error (StateM σ) α) :=
  fun _ => firm_error final

theorem sturdy_modify (change : σ → σ) :
    Sturdy (modify change : ExceptT Error (StateM σ) PUnit) :=
  fun _ => firm_ok _

theorem Sturdy.bind (sturdy : Sturdy first) (nextSturdy : ∀ value, Sturdy (next value)) :
    Sturdy (first >>= next) := by
  intro state
  have firm := sturdy state
  rw [bind_apply]
  cases ran : first state with
  | mk result after =>
      rw [ran] at firm
      cases result with
      | ok value => exact nextSturdy value after
      | error error => exact firm_error (Bool.eq_false_iff.mpr (firm error rfl))

theorem Sturdy.forM {step : α → ExceptT Error (StateM σ) PUnit}
    (sturdy : ∀ value, Sturdy (step value)) (values : List α) : Sturdy (values.forM step) := by
  induction values with
  | nil => exact sturdy_pure _
  | cons value rest ih => exact (sturdy value).bind fun _ => ih

theorem Sturdy.mapM {step : α → ExceptT Error (StateM σ) β}
    (sturdy : ∀ value, Sturdy (step value)) (values : List α) : Sturdy (values.mapM step) := by
  induction values with
  | nil => exact sturdy_pure _
  | cons value rest ih =>
      rw [List.mapM_cons]
      exact (sturdy value).bind fun _ => ih.bind fun _ => sturdy_pure _

theorem Sturdy.discard (sturdy : Sturdy step) :
    Sturdy (Functor.discard step : ExceptT Error (StateM σ) PUnit) :=
  sturdy.bind fun _ => sturdy_pure _

end Steps

namespace Graph

variable (graph : Graph)

theorem firm_node (id : NodeId) : Firm (graph.node id) := by
  unfold Graph.node
  split
  · exact firm_ok _
  · exact firm_error rfl

theorem firm_pin (id : PinId) : Firm (graph.pin id) := by
  unfold Graph.pin
  split
  · exact firm_ok _
  · exact firm_error rfl

theorem firm_findPinAmong (name : String) (direction : Option PinDirection) (ids : List PinId) :
    Firm (graph.findPinAmong name direction ids) := by
  induction ids with
  | nil => exact firm_ok _
  | cons id rest ih =>
      refine (graph.firm_pin id).bind fun pin => ?_
      split
      · exact firm_ok _
      · exact ih

theorem firm_findPin? (node : NodeId) (name : String) (direction : Option PinDirection) :
    Firm (graph.findPin? node name direction) :=
  (graph.firm_node node).bind fun _ => graph.firm_findPinAmong name direction _

theorem firm_findPin (node : NodeId) (name : String) (direction : Option PinDirection) :
    Firm (graph.findPin node name direction) := by
  refine (graph.firm_findPin? node name direction).bind fun found => ?_
  cases found with
  | none => exact firm_error rfl
  | some pin => exact firm_ok _

theorem firm_pinsToward (node : NodeId) (direction : PinDirection) :
    Firm (graph.pinsToward node direction) :=
  (graph.firm_node node).bind fun _ =>
    (Firm.mapM (fun id => (graph.firm_pin id).bind fun _ => firm_ok _) _).bind fun _ => firm_ok _

theorem firm_castResult (cast : NodeId) : Firm (graph.castResult cast) := by
  refine (graph.firm_node cast).bind fun data => ?_
  split
  · exact graph.firm_findPin cast _ _
  · exact firm_error rfl

end Graph

namespace Edit

theorem sturdy_query {α : Type} {answer : Graph → Except Error α}
    (firm : ∀ graph, Firm (answer graph)) : Sturdy (query answer) :=
  firm

theorem sturdy_node (id : NodeId) : Sturdy (Edit.node id) :=
  sturdy_query fun graph => graph.firm_node id

theorem sturdy_pin (id : PinId) : Sturdy (Edit.pin id) :=
  sturdy_query fun graph => graph.firm_pin id

theorem sturdy_modifyNode (id : NodeId) (change : Node → Node) : Sturdy (modifyNode id change) :=
  (sturdy_node id).bind fun _ => sturdy_modify _

theorem sturdy_modifyPin (id : PinId) (change : Pin → Pin) : Sturdy (modifyPin id change) :=
  (sturdy_pin id).bind fun _ => sturdy_modify _

theorem sturdy_addPin (node : NodeId) (direction : PinDirection) (pinType : PinType)
    (name : String) : Sturdy (addPin node direction pinType name) := by
  refine (sturdy_query fun graph => graph.firm_findPin? node name _).bind fun found => ?_
  cases found with
  | some id => exact sturdy_throw rfl
  | none =>
      exact Sturdy.bind (fun _ => firm_ok _) fun _ => (sturdy_modify _).bind fun _ =>
        (sturdy_modifyNode _ _).bind fun _ => sturdy_pure _

theorem sturdy_layPins (node : NodeId) (specs : List PinSpec) : Sturdy (layPins node specs) :=
  Sturdy.forM (fun _ => Sturdy.discard ((sturdy_addPin node _ _ _).bind fun _ =>
    (sturdy_modifyPin _ _).bind fun _ => sturdy_pure _)) specs

theorem sturdy_spawnNode (kind : NodeKind) (source : NodeId) : Sturdy (spawnNode kind source) :=
  (sturdy_node source).bind fun _ => Sturdy.bind (fun _ => firm_ok _) fun _ =>
    (sturdy_modifyNode _ _).bind fun _ => sturdy_pure _

theorem sturdy_unlinkNode (node : NodeId) : Sturdy (unlinkNode node) :=
  (sturdy_node node).bind fun _ => Sturdy.forM (fun id => (sturdy_pin id).bind fun _ =>
    (sturdy_modifyPin _ _).bind fun _ => Sturdy.forM (fun _ => sturdy_modifyPin _ _) _) _

end Edit

namespace Pass

theorem sturdy_edit {α : Type} {change : Edit α} (sturdy : Sturdy change) : Sturdy (edit change) :=
  fun before => sturdy before.graph

theorem unspoilt_edit {α : Type} {change : Edit α} {before : PassState} {mid : α → Graph → Prop}
    {post : α → PassState → Prop} (unspoilt : Unspoilt change before.graph mid)
    (leaves : ∀ {value after}, Yields (edit change) before value after → post value after) :
    Unspoilt (edit change) before post := by
  have same : edit change before =
      ((change before.graph).1, { before with graph := (change before.graph).2 }) := rfl
  unfold Unspoilt at unspoilt ⊢
  cases ran : change before.graph with
  | mk result graph =>
      rw [ran] at unspoilt same
      rw [same]
      cases result with
      | ok value => exact leaves same
      | error error => exact unspoilt

theorem sturdy_query {α : Type} {answer : Graph → Except Error α}
    (firm : ∀ graph, Firm (answer graph)) : Sturdy (Pass.query answer) :=
  sturdy_edit firm

theorem sturdy_takeIndex : Sturdy takeIndex := by
  intro before error failed
  have taken : before.indices.take.1 = .error error := failed
  unfold IndexAllocator.take at taken
  split at taken
  · cases taken
    exact Bool.false_ne_true
  · cases taken

theorem sturdy_spawnNode (kind : NodeKind) (source : NodeId) : Sturdy (spawnNode kind source) :=
  (sturdy_edit (Edit.sturdy_spawnNode kind source)).bind fun _ => (sturdy_modify _).bind fun _ =>
    sturdy_pure _

theorem sturdy_spawn (kind : NodeKind) (pins : List PinSpec) (source : NodeId) :
    Sturdy (spawn kind pins source) :=
  (sturdy_spawnNode kind source).bind fun _ => (sturdy_edit (Edit.sturdy_layPins _ _)).bind
    fun _ => sturdy_pure _

theorem sturdy_spawnEvent (source : NodeId) (signature name : String) :
    Sturdy (spawnEvent source signature name) :=
  (Sturdy.bind (fun _ => firm_ok _) fun _ => sturdy_spawnNode _ source).bind fun _ =>
    (sturdy_edit (Edit.sturdy_layPins _ _)).bind fun _ => sturdy_pure _

end Pass

namespace Target

theorem sturdy_parameters (env : Environment) (target : Target) (direction : PinDirection) :
    Sturdy (target.parameters env direction) := by
  have parameterSturdy (id : PinId) : Sturdy (target.parameter? env direction id) := by
    refine (Pass.sturdy_edit (Edit.sturdy_pin id)).bind fun pin => ?_
    split
    · split
      · exact sturdy_pure _
      · exact (sturdy_modify _).bind fun _ => sturdy_pure _
    · exact sturdy_pure _
  exact (Pass.sturdy_query fun graph => graph.firm_pinsToward target.node direction).bind fun _ =>
    (Sturdy.mapM parameterSturdy _).bind fun _ => sturdy_pure _

end Target

theorem Environment.firm_target (env : Environment) (fullCompile : Bool) (graph : Graph)
    (node : NodeId) : Firm (env.target fullCompile graph node) := by
  cases fullCompile with
  | false => exact firm_ok _
  | true =>
      refine (graph.firm_node node).bind fun data => ?_
      split
      · exact firm_ok _
      · split
        · exact firm_ok _
        · split
          · exact firm_ok _
          · exact firm_ok _

theorem Succeeds.unspoilt {σ α : Type} {step : ExceptT Error (StateM σ) α} {before : σ}
    {post : α → σ → Prop} (succeeds : Succeeds step before)
    (leaves : ∀ {value after}, Yields step before value after → post value after) :
    Unspoilt step before post := by
  obtain ⟨value, after, yielded⟩ := succeeds
  unfold Unspoilt
  rw [show step before = _ from yielded]
  exact leaves yielded

end RigLowering
