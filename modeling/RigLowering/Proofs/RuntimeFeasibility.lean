import RigLowering.Proofs.FieldLowering
import RigLowering.Proofs.NodeMaking

namespace RigLowering

namespace PinType

variable {hierarchy : ClassHierarchy} {base className signature : String} {pinType : PinType}

theorem eq_of_isObjectOf (isObject : pinType.isObjectOf base) :
    pinType = ⟨.object, some base, pinType.container⟩ := by
  obtain ⟨category, referent, container⟩ := pinType
  obtain ⟨rfl, rfl⟩ : category = .object ∧ referent = some base := by
    simpa [isObjectOf] using isObject
  rfl

theorem eq_of_isDelegateOf (isDelegate : pinType.isDelegateOf signature) :
    pinType = ⟨.delegate, some signature, pinType.container⟩ := by
  obtain ⟨category, referent, container⟩ := pinType
  obtain ⟨rfl, rfl⟩ : category = .delegate ∧ referent = some signature := by
    simpa [isDelegateOf] using isDelegate
  rfl

theorem feeds_isObjectOf_iff (isObject : pinType.isObjectOf base)
    (derives : hierarchy.derivesFrom className base) :
    (object className).feeds hierarchy pinType ↔ pinType.container = .single := by
  rw [eq_of_isObjectOf isObject]
  simp [feeds, object, referring, referentFeeds, derives, eq_comm]

theorem feeds_isDelegateOf_iff (isDelegate : pinType.isDelegateOf signature) :
    (delegate signature).feeds hierarchy pinType ↔ pinType.container = .single := by
  rw [eq_of_isDelegateOf isDelegate]
  simp [feeds, delegate, referring, referentFeeds, eq_comm]

theorem feeds_anyObject_iff (isObject : pinType.isObjectOf base) :
    pinType.feeds hierarchy anyObject ↔ pinType.container = .single := by
  rw [eq_of_isObjectOf isObject]
  simp [feeds, anyObject, plain, referentFeeds]

end PinType

namespace Graph

/-- The node has in `after` the pins that it has in `before`. -/
def KeepsPins (before : Graph) (node : NodeId) (after : Graph) : Prop :=
  ∃ data later, before.node? node = some data ∧ after.node? node = some later ∧
    later.pins = data.pins ∧
      ∀ id ∈ data.pins, ∀ face, before.face? id = some face → after.face? id = some face

/-- The node came of the step, whatever that began with, and still has the pins that it got. -/
def MadeBy (graph : Graph) (step : Pass NodeId) (node : NodeId) : Prop :=
  ∃ before after, Yields step before node after ∧ after.graph.KeepsPins node graph

/-- Both pins are found, and one can be linked to the other. -/
def Joins (graph : Graph) (output input : Except Error PinId) : Prop :=
  ∃ id far, output = .ok id ∧ input = .ok far ∧ Succeeds (Edit.link id far) graph

section MadeBy

variable {before after graph : Graph} {node other : NodeId} {specs otherSpecs : List PinSpec}
  {kind : NodeKind} {source : NodeId} {outputType inputType : PinType} {name inputName : String}

private theorem keep_pins {ids : List PinId} (pins : List.Forall₂ (before.HasPin node) specs ids)
    (faces : ∀ id ∈ ids, ∀ face, before.face? id = some face → after.face? id = some face) :
    List.Forall₂ (after.HasPin node) specs ids := by
  induction pins with
  | nil => exact .nil
  | cons hasPin _ ih =>
      obtain ⟨face, found, rest⟩ := hasPin
      exact .cons ⟨face, faces _ (by simp) face found, rest⟩
        (ih fun id member => faces id (List.mem_cons_of_mem _ member))

theorem Carries.mono (carries : before.Carries node specs)
    (keeps : before.KeepsPins node after) : after.Carries node specs := by
  obtain ⟨data, found, pins⟩ := carries
  obtain ⟨_, later, same, laterFound, laterPins, faces⟩ := keeps
  cases found.symm.trans same
  exact ⟨later, laterFound, laterPins ▸ keep_pins pins faces⟩

theorem Carries.keepsPins (carries : graph.Carries node specs) : graph.KeepsPins node graph := by
  obtain ⟨data, found, _⟩ := carries
  exact ⟨data, data, found, found, rfl, fun _ _ _ => id⟩

theorem Adds.keepsPins (adds : Adds node specs before after)
    (carries : before.Carries other otherSpecs) : before.KeepsPins other after := by
  have old := carries.lt_size
  obtain ⟨data, found, _⟩ := carries
  exact ⟨data, data, found, (adds.keeps old).trans found, rfl, fun _ _ _ => adds.face⟩

theorem Adds.ne_other (adds : Adds node specs before after)
    (carries : before.Carries other otherSpecs) : node ≠ other := by
  rintro rfl
  exact Nat.lt_irrefl _ (adds.new ▸ carries.lt_size)

theorem MadeBy.carries (made : graph.MadeBy (Pass.spawn kind specs source) node) :
    graph.Carries node specs ∧ PinSpec.Distinct specs := by
  obtain ⟨before, after, yielded, keeps⟩ := made
  exact ⟨(Pass.spawn_adds yielded).carries.mono keeps,
    (Pass.succeeds_spawn_iff.mp ⟨node, after, yielded⟩).2⟩

theorem MadeBy.carries_event {signature base : String}
    (made : graph.MadeBy (Pass.spawnEvent source signature base) node) :
    graph.Carries node (PrimitivePins.event signature) := by
  obtain ⟨before, after, yielded, keeps⟩ := made
  exact (Pass.spawnEvent_adds yielded).carries.mono keeps

/-- A pin that is there is joined to one that is looked up, just when that takes what it gives. -/
theorem joins_input_iff {output : PinId}
    (hasOutput : graph.HasPin node ⟨.output, outputType, name⟩ output)
    (carries : graph.Carries other otherSpecs) (distinct : PinSpec.Distinct otherSpecs)
    (listed : ⟨.input, inputType, inputName⟩ ∈ otherSpecs) (apart : node ≠ other) :
    graph.Joins (.ok output) (graph.findPin other inputName (some .input)) ↔
      outputType.feeds graph.hierarchy inputType := by
  obtain ⟨input, searched, hasInput⟩ := carries.findPin distinct listed
  constructor
  · rintro ⟨_, _, ⟨⟩, found, linked⟩
    cases searched.symm.trans found
    exact hasOutput.feeds hasInput (Edit.succeeds_link_iff.mp linked)
  · intro feeds
    exact ⟨output, input, rfl, searched,
      Edit.succeeds_link_iff.mpr (.inl (hasOutput.mates hasInput apart feeds))⟩

theorem joins_iff (carries : graph.Carries node specs) (distinct : PinSpec.Distinct specs)
    (listed : ⟨.output, outputType, name⟩ ∈ specs)
    (otherCarries : graph.Carries other otherSpecs) (otherDistinct : PinSpec.Distinct otherSpecs)
    (otherListed : ⟨.input, inputType, inputName⟩ ∈ otherSpecs) (apart : node ≠ other) :
    graph.Joins (graph.findPin node name (some .output))
        (graph.findPin other inputName (some .input)) ↔
      outputType.feeds graph.hierarchy inputType := by
  obtain ⟨output, searched, hasOutput⟩ := carries.findPin distinct listed
  rw [searched]
  exact joins_input_iff hasOutput otherCarries otherDistinct otherListed apart

end MadeBy

end Graph

namespace PrimitivePins

theorem source_mem_cast (target : String) (isPure : Bool) :
    ⟨.input, .anyObject, PinName.castSource⟩ ∈ cast target isPure := by
  cases isPure <;> simp [cast]

end PrimitivePins

namespace FunctionSignature

variable {function : FunctionSignature} {name base : String} {accepts : PinType → Bool}

theorem expectParameter_eq_ok_iff : function.expectParameter name accepts = .ok () ↔
    ∃ parameter, function.parameter? name = some parameter ∧ accepts parameter.pinType := by
  unfold expectParameter
  cases function.parameter? name <;> simp

theorem expectReturn_eq_ok_iff : function.expectReturn base = .ok () ↔
    ∃ pinType, function.returnType = some pinType ∧ pinType.isObjectOf base := by
  unfold expectReturn
  cases function.returnType <;> simp

theorem mem_call_of_parameter? {parameter : FunctionParameter}
    (found : function.parameter? name = some parameter) (isPure : Bool) :
    ⟨.input, parameter.pinType, name⟩ ∈ PrimitivePins.call function isPure := by
  have named : parameter.name = name := by simpa using List.find?_some found
  exact named ▸ PrimitivePins.parameter_mem_call parameter (List.mem_of_find?_eq_some found)

end FunctionSignature

namespace RigRuntime

def functions (runtime : RigRuntime) : List FunctionSignature :=
  [runtime.allocate, runtime.evaluate, runtime.evaluateWithInputs]

def evaluations (runtime : RigRuntime) : List FunctionSignature :=
  [runtime.evaluate, runtime.evaluateWithInputs]

/-- What a check of a table sees to, whatever the containers are. -/
structure Typed (runtime : RigRuntime) : Prop where
  target : ∀ function ∈ runtime.evaluations, ∃ parameter,
    function.parameter? RuntimeName.target = some parameter ∧
      parameter.pinType.isObjectOf runtime.base
  preEvaluate : ∃ parameter,
    runtime.evaluateWithInputs.parameter? RuntimeName.preEvaluate = some parameter ∧
      parameter.pinType.isDelegateOf runtime.gatherSignature
  returned : ∀ function ∈ runtime.functions, ∃ pinType,
    function.returnType = some pinType ∧ pinType.isObjectOf runtime.base

/-- All that the lowering of an evaluator asks of a runtime can be had in any graph: calls can be
made; a rig goes into an evaluation, and so does the event that gathers the inputs; and whatever a
call gives can be cast. -/
structure Usable (runtime : RigRuntime) : Prop where
  called : ∀ function ∈ runtime.functions, ∀ (before : PassState) (source : NodeId),
    (∃ data, before.graph.node? source = some data) →
      Succeeds (Pass.spawnCall source function true) before
  target : ∀ function ∈ runtime.evaluations, ∀ (graph : Graph) (source call : NodeId),
    graph.MadeBy (Pass.spawnCall source function true) call →
      ∀ node className name output,
        graph.HasPin node ⟨.output, .object className, name⟩ output → node ≠ call →
          graph.hierarchy.derivesFrom className runtime.base →
            graph.Joins (.ok output) (graph.findPin call RuntimeName.target (some .input))
  preEvaluate : ∀ (graph : Graph) (source other call event : NodeId) (base : String),
    graph.MadeBy (Pass.spawnCall source runtime.evaluateWithInputs true) call →
      graph.MadeBy (Pass.spawnEvent other runtime.gatherSignature base) event → event ≠ call →
        graph.Joins (graph.findPin event PinName.outputDelegate (some .output))
          (graph.findPin call RuntimeName.preEvaluate (some .input))
  returned : ∀ function ∈ runtime.functions, ∀ (graph : Graph) (source other call cast : NodeId)
      (className : String) (isPure : Bool),
    graph.MadeBy (Pass.spawnCall source function true) call →
      graph.MadeBy (Pass.spawnCast other className isPure) cast → call ≠ cast →
        graph.Joins (graph.findPin call PinName.returnValue (some .output)) (graph.castSource cast)

/-- No function has two parameters of one name, and no pin that is linked holds a container. -/
structure Plain (runtime : RigRuntime) : Prop where
  named : ∀ function ∈ runtime.functions, (function.parameters.map (·.name)).Nodup
  target : ∀ function ∈ runtime.evaluations, ∀ parameter,
    function.parameter? RuntimeName.target = some parameter → parameter.pinType.container = .single
  preEvaluate : ∀ parameter,
    runtime.evaluateWithInputs.parameter? RuntimeName.preEvaluate = some parameter →
      parameter.pinType.container = .single
  returned : ∀ function ∈ runtime.functions, ∀ pinType,
    function.returnType = some pinType → pinType.container = .single

variable {table : RuntimeTable} {runtime : RigRuntime}

theorem typed_of_ofTable (accepted : ofTable table = .ok runtime) : runtime.Typed := by
  obtain ⟨_, _, accepted⟩ := bind_eq_ok_iff.mp accepted
  obtain ⟨allocate, _, accepted⟩ := bind_eq_ok_iff.mp accepted
  obtain ⟨_, _, accepted⟩ := bind_eq_ok_iff.mp accepted
  obtain ⟨_, _, accepted⟩ := bind_eq_ok_iff.mp accepted
  obtain ⟨_, allocated, accepted⟩ := bind_eq_ok_iff.mp accepted
  obtain ⟨evaluate, _, accepted⟩ := bind_eq_ok_iff.mp accepted
  obtain ⟨_, targeted, accepted⟩ := bind_eq_ok_iff.mp accepted
  obtain ⟨_, evaluated, accepted⟩ := bind_eq_ok_iff.mp accepted
  obtain ⟨evaluateWithInputs, _, accepted⟩ := bind_eq_ok_iff.mp accepted
  obtain ⟨_, targetedToo, accepted⟩ := bind_eq_ok_iff.mp accepted
  obtain ⟨_, gathered, accepted⟩ := bind_eq_ok_iff.mp accepted
  obtain ⟨_, evaluatedToo, accepted⟩ := bind_eq_ok_iff.mp accepted
  cases accepted
  refine ⟨?_, FunctionSignature.expectParameter_eq_ok_iff.mp gathered, ?_⟩
  · simp only [evaluations, List.forall_mem_cons]
    exact ⟨FunctionSignature.expectParameter_eq_ok_iff.mp targeted,
      FunctionSignature.expectParameter_eq_ok_iff.mp targetedToo, by simp⟩
  · simp only [functions, List.forall_mem_cons]
    exact ⟨FunctionSignature.expectReturn_eq_ok_iff.mp allocated,
      FunctionSignature.expectReturn_eq_ok_iff.mp evaluated,
      FunctionSignature.expectReturn_eq_ok_iff.mp evaluatedToo, by simp⟩

theorem mem_functions_of_mem_evaluations {function : FunctionSignature}
    (member : function ∈ runtime.evaluations) :
    function ∈ runtime.functions :=
  List.mem_cons_of_mem _ member

section Links

variable {function : FunctionSignature} {graph : Graph} {source other node call : NodeId}
  {parameter : FunctionParameter} {base : String}

theorem joins_target_iff {className name : String} {output : PinId}
    (made : graph.MadeBy (Pass.spawnCall source function true) call)
    (found : function.parameter? RuntimeName.target = some parameter)
    (isObject : parameter.pinType.isObjectOf base)
    (gives : graph.HasPin node ⟨.output, .object className, name⟩ output) (apart : node ≠ call)
    (derives : graph.hierarchy.derivesFrom className base) :
    graph.Joins (.ok output) (graph.findPin call RuntimeName.target (some .input)) ↔
      parameter.pinType.container = .single := by
  obtain ⟨carries, distinct⟩ := made.carries
  have takes := FunctionSignature.mem_call_of_parameter? found true
  rw [Graph.joins_input_iff gives carries distinct takes apart]
  exact PinType.feeds_isObjectOf_iff isObject derives

theorem joins_preEvaluate_iff {signature name : String} {event : NodeId}
    (made : graph.MadeBy (Pass.spawnCall source function true) call)
    (found : function.parameter? RuntimeName.preEvaluate = some parameter)
    (isDelegate : parameter.pinType.isDelegateOf signature)
    (gathers : graph.MadeBy (Pass.spawnEvent other signature name) event) (apart : event ≠ call) :
    graph.Joins (graph.findPin event PinName.outputDelegate (some .output))
        (graph.findPin call RuntimeName.preEvaluate (some .input)) ↔
      parameter.pinType.container = .single := by
  obtain ⟨carries, distinct⟩ := made.carries
  have takes := FunctionSignature.mem_call_of_parameter? found true
  rw [Graph.joins_iff gathers.carries_event (PrimitivePins.distinct_event signature)
    (.tail _ (.head _)) carries distinct takes apart]
  exact PinType.feeds_isDelegateOf_iff isDelegate

theorem joins_returned_iff {className : String} {isPure : Bool} {cast : NodeId} {pinType : PinType}
    (made : graph.MadeBy (Pass.spawnCall source function true) call)
    (returns : function.returnType = some pinType) (isObject : pinType.isObjectOf base)
    (casts : graph.MadeBy (Pass.spawnCast other className isPure) cast) (apart : call ≠ cast) :
    graph.Joins (graph.findPin call PinName.returnValue (some .output)) (graph.castSource cast) ↔
      pinType.container = .single := by
  obtain ⟨carries, distinct⟩ := made.carries
  obtain ⟨castCarries, castDistinct⟩ := casts.carries
  unfold Graph.castSource
  rw [Graph.joins_iff carries distinct (PrimitivePins.returned_mem_call returns) castCarries
    castDistinct (PrimitivePins.source_mem_cast className isPure) apart]
  exact PinType.feeds_anyObject_iff isObject

end Links

theorem Plain.usable (plain : runtime.Plain) (typed : runtime.Typed) : runtime.Usable where
  called := by
    intro function member before source found
    exact Pass.succeeds_spawn_iff.mpr
      ⟨found, PrimitivePins.distinct_call_iff.mpr (plain.named function member)⟩
  target := by
    intro function member graph source call made node className name output gives apart derives
    obtain ⟨parameter, found, isObject⟩ := typed.target function member
    exact (joins_target_iff made found isObject gives apart derives).mpr
      (plain.target function member parameter found)
  preEvaluate := by
    intro graph source other call event base made gathers apart
    obtain ⟨parameter, found, isDelegate⟩ := typed.preEvaluate
    exact (joins_preEvaluate_iff made found isDelegate gathers apart).mpr
      (plain.preEvaluate parameter found)
  returned := by
    intro function member graph source other call cast className isPure made casts apart
    obtain ⟨pinType, returns, isObject⟩ := typed.returned function member
    exact (joins_returned_iff made returns isObject casts apart).mpr
      (plain.returned function member pinType returns)

/-- A state with nothing but a node that gives a rig. -/
def solo (base : String) : PassState :=
  .start (.empty base) .standard
    { name := "Solo"
      parentClass := none
      nodes := #[⟨⟨0⟩, .primitive "rig", [⟨0⟩], none⟩]
      pins := #[some ⟨⟨0⟩, ⟨0⟩, "rig", .output, .object base, none, none, []⟩]
      hierarchy := .empty
      undo := none }

section Usable

variable {function : FunctionSignature} {parameter : FunctionParameter}

theorem Usable.exists_call (usable : runtime.Usable) (member : function ∈ runtime.functions) :
    ∃ call after, Yields (Pass.spawnCall ⟨0⟩ function true) (solo runtime.base) call after ∧
      Graph.Adds call (PrimitivePins.call function true) (solo runtime.base).graph after.graph ∧
        ∃ data, after.graph.node? ⟨0⟩ = some data := by
  obtain ⟨call, after, called⟩ := usable.called function member (solo runtime.base) ⟨0⟩ ⟨_, rfl⟩
  have adds := Pass.spawn_adds called
  exact ⟨call, after, called, adds, _, (adds.keeps Nat.zero_lt_one).trans rfl⟩

theorem Usable.target_single (usable : runtime.Usable) (member : function ∈ runtime.evaluations)
    (found : function.parameter? RuntimeName.target = some parameter)
    (isObject : parameter.pinType.isObjectOf runtime.base) :
    parameter.pinType.container = .single := by
  obtain ⟨call, after, called, adds, _⟩ :=
    usable.exists_call (mem_functions_of_mem_evaluations member)
  have gives : after.graph.HasPin ⟨0⟩ ⟨.output, .object runtime.base, "rig"⟩ ⟨0⟩ :=
    adds.hasPin ⟨_, rfl, rfl, rfl⟩
  have apart : (⟨0⟩ : NodeId) ≠ call := by
    rw [adds.new]
    exact nofun
  have made : after.graph.MadeBy (Pass.spawnCall ⟨0⟩ function true) call :=
    ⟨_, after, called, adds.carries.keepsPins⟩
  have derives := after.graph.hierarchy.derivesFrom_self runtime.base
  exact (joins_target_iff made found isObject gives apart derives).mp
    (usable.target function member _ _ _ made _ _ _ _ gives apart derives)

theorem Usable.preEvaluate_single (usable : runtime.Usable)
    (found : runtime.evaluateWithInputs.parameter? RuntimeName.preEvaluate = some parameter)
    (isDelegate : parameter.pinType.isDelegateOf runtime.gatherSignature) :
    parameter.pinType.container = .single := by
  obtain ⟨call, after, called, adds, stands⟩ :=
    @Usable.exists_call runtime runtime.evaluateWithInputs usable (by simp [functions])
  obtain ⟨event, later, evented⟩ :
      Succeeds (Pass.spawnEvent ⟨0⟩ runtime.gatherSignature "Gather") after :=
    Pass.succeeds_spawnEvent_iff.mpr stands
  have eventAdds := Pass.spawnEvent_adds evented
  have made : later.graph.MadeBy (Pass.spawnCall ⟨0⟩ runtime.evaluateWithInputs true) call :=
    ⟨_, after, called, eventAdds.keepsPins adds.carries⟩
  have gathers : later.graph.MadeBy
      (Pass.spawnEvent ⟨0⟩ runtime.gatherSignature "Gather") event :=
    ⟨after, later, evented, eventAdds.carries.keepsPins⟩
  have apart := eventAdds.ne_other adds.carries
  exact (joins_preEvaluate_iff made found isDelegate gathers apart).mp
    (usable.preEvaluate _ _ _ _ _ _ made gathers apart)

theorem Usable.returned_single {pinType : PinType} (usable : runtime.Usable)
    (member : function ∈ runtime.functions) (returns : function.returnType = some pinType)
    (isObject : pinType.isObjectOf runtime.base) : pinType.container = .single := by
  obtain ⟨call, after, called, adds, stands⟩ := usable.exists_call member
  obtain ⟨cast, later, casting⟩ : Succeeds (Pass.spawnCast ⟨0⟩ runtime.base true) after :=
    Pass.succeeds_spawn_iff.mpr ⟨stands, PrimitivePins.distinct_cast runtime.base⟩
  have castAdds := Pass.spawn_adds casting
  have made : later.graph.MadeBy (Pass.spawnCall ⟨0⟩ function true) call :=
    ⟨_, after, called, castAdds.keepsPins adds.carries⟩
  have casts : later.graph.MadeBy (Pass.spawnCast ⟨0⟩ runtime.base true) cast :=
    ⟨after, later, casting, castAdds.carries.keepsPins⟩
  have apart := (castAdds.ne_other adds.carries).symm
  exact (joins_returned_iff made returns isObject casts apart).mp
    (usable.returned function member _ _ _ _ _ _ _ made casts apart)

theorem Usable.plain (usable : runtime.Usable) (typed : runtime.Typed) : runtime.Plain where
  named := by
    intro function member
    obtain ⟨call, after, called, _⟩ := usable.exists_call member
    exact PrimitivePins.distinct_call_iff.mp (Pass.succeeds_spawn_iff.mp ⟨call, after, called⟩).2
  target := by
    intro function member parameter found
    obtain ⟨_, same, isObject⟩ := typed.target function member
    cases found.symm.trans same
    exact usable.target_single member found isObject
  preEvaluate := by
    intro parameter found
    obtain ⟨_, same, isDelegate⟩ := typed.preEvaluate
    cases found.symm.trans same
    exact usable.preEvaluate_single found isDelegate
  returned := by
    intro function member pinType returns
    obtain ⟨_, same, isObject⟩ := typed.returned function member
    cases returns.symm.trans same
    exact usable.returned_single member returns isObject

end Usable

/-- A table passes for a runtime whose functions may not fit together.  They do, if parameters have
names of their own and no container is in the way. -/
theorem usable_iff_plain (accepted : ofTable table = .ok runtime) :
    runtime.Usable ↔ runtime.Plain :=
  ⟨fun usable => usable.plain (typed_of_ofTable accepted),
    fun plain => plain.usable (typed_of_ofTable accepted)⟩

end RigRuntime

/-! A runtime that evaluates many rigs at once, as far as its types go. -/

namespace ManyTargets

def evaluate : FunctionSignature :=
  ⟨RuntimeName.evaluate, [⟨RuntimeName.target, .arrayOf (.object "Rig")⟩], some (.object "Rig")⟩

def table : RuntimeTable :=
  ⟨"Rig",
    [StandardFunction.allocate "Rig", evaluate, StandardFunction.evaluateWithInputs "Rig"],
    [RuntimeName.gatherSignature]⟩

def runtime : RigRuntime :=
  { RigRuntime.standard "Rig" with evaluate := evaluate }

theorem accepted : RigRuntime.ofTable table = .ok runtime :=
  rfl

theorem not_plain : ¬ runtime.Plain :=
  fun plain => nomatch plain.target evaluate (.head _) _ rfl

theorem standard_plain : (RigRuntime.standard "Rig").Plain where
  named := by decide
  target := by
    simp only [RigRuntime.evaluations, List.forall_mem_cons]
    refine ⟨?_, ?_, by simp⟩ <;> rintro _ ⟨⟩ <;> rfl
  preEvaluate := by
    rintro _ ⟨⟩
    rfl
  returned := by
    simp only [RigRuntime.functions, List.forall_mem_cons]
    refine ⟨?_, ?_, ?_, by simp⟩ <;> rintro _ ⟨⟩ <;> rfl

/-- The standard runtime is usable.  This one is not, though its table is accepted. -/
theorem usable_standard_only : (RigRuntime.standard "Rig").Usable ∧ ¬ runtime.Usable :=
  ⟨(@RigRuntime.usable_iff_plain (.standard "Rig") _ rfl).mpr standard_plain,
    fun usable => not_plain ((RigRuntime.usable_iff_plain accepted).mp usable)⟩

theorem not_always_usable : ¬ ∀ (table : RuntimeTable) (runtime : RigRuntime),
    RigRuntime.ofTable table = .ok runtime → runtime.Usable := by
  intro usable
  exact not_plain ((usable table runtime accepted).plain (RigRuntime.typed_of_ofTable accepted))

end ManyTargets

end RigLowering
