import RigLowering.Proofs.FieldLowering

namespace RigLowering

namespace Target

open RigLowering.Graph

/-- The evaluator is bound to a registered class, has the pins that its settings ask for, and is
about to be expanded in a graph that knows the rig classes. -/
structure Prepared (env : Environment) (target : Target) (base : Graph) : Prop where
  built : env.registry.Built
  standard : env.runtime = .standard env.registry.base
  bound : env.registry.rigType? target.settings = some target.rigType
  knows : env.registry.hierarchy.Extends base.hierarchy
  conforms : ∀ {id face}, base.face? id = some face → face.owner = target.node →
    face.spec ∈ env.registry.evaluatorPins target.settings

variable {env : Environment} {target : Target} {base earlier : Graph} {before : PassState}

/-- Objects of the rig type are objects of the base class. -/
theorem Prepared.feeds (prepared : target.Prepared env base) :
    (PinType.object target.rigType).feeds base.hierarchy (.object env.registry.base) := by
  have derives := prepared.built.derivesFrom_base (RigRegistry.rigType?_eq_some prepared.bound)
  exact ClassHierarchy.Extends.derivesFrom prepared.knows derives

theorem unspoilt_castToRigType {object : PinId} {name : String}
    (lowering : Lowering base target.node before.graph)
    (gives : Gives base before.graph (.object name) object) :
    Unspoilt (target.castToRigType object) before fun result after =>
      Bypasses base target.node before.graph after.graph ∧
        Gives base after.graph (.object target.rigType) result := by
  refine (Pass.unspoilt_spawn lowering rfl).bind ?_
  rintro cast first ⟨opened, furnished, spawned, _⟩
  have listed : (⟨.input, .anyObject, PinName.castSource⟩ : PinSpec) ∈
      PrimitivePins.cast target.rigType true := by
    simp [PrimitivePins.cast]
  have resultListed :
      (⟨.output, .object target.rigType, PinName.castResult target.rigType⟩ : PinSpec) ∈
        PrimitivePins.cast target.rigType true := by
    simp [PrimitivePins.cast]
  refine (Pass.unspoilt_findPin opened.lowering.toRegular furnished listed).bind ?_
  rintro source _ ⟨rfl, hasSource⟩
  refine (Pass.unspoilt_link_value opened.lowering furnished gives
    (PinType.referring_ne_exec _ _) hasSource
    rfl).bind ?_
  intro _ second joined
  refine (Pass.sturdy_query fun graph => graph.firm_castResult cast).unspoilt ?_
  intro result after yielded
  obtain ⟨rfl, answered⟩ := Pass.yields_query_iff.mp yielded
  obtain ⟨id, hasResult⟩ := (furnished.mono joined.extended).bears _ resultListed
  obtain rfl := hasResult.eq_of_port joined.lowering.toRegular
    (castResult_eq_ok joined.lowering.toSound (spawned.mono rfl joined.extended) answered)
  exact ⟨opened.trans joined, hasResult.gives furnished.added⟩

theorem unspoilt_allocate (prepared : target.Prepared env base)
    (lowering : Lowering base target.node before.graph) :
    Unspoilt (target.allocate env) before fun subRig after =>
      Bypasses base target.node before.graph after.graph ∧
        Gives base after.graph (.object target.rigType) subRig.pin := by
  unfold allocate
  rw [prepared.standard]
  refine (Pass.unspoilt_spawn lowering rfl).bind ?_
  rintro call first ⟨opened, furnished, _, _⟩
  refine Pass.unspoilt_takeIndex.bind fun index second same => ?_
  rw [← same] at opened furnished
  refine (Pass.unspoilt_findPin opened.lowering.toRegular furnished
    (PrimitivePins.parameter_mem_call ⟨RuntimeName.allocationIndex, .int⟩ (.head _))).bind ?_
  rintro indexPin _ ⟨rfl, _⟩
  refine (@Pass.unspoilt_changeLiterals base target.node _ indexPin
    (fun _ => some (toString index)) (·.defaultObject) opened.lowering).bind ?_
  intro _ third indexed
  refine (Pass.unspoilt_findPin indexed.lowering.toRegular (furnished.mono indexed.extended)
    (PrimitivePins.parameter_mem_call ⟨RuntimeName.rigClass, .classOf env.registry.base⟩
      (.tail _ (.head _)))).bind ?_
  rintro classPin _ ⟨rfl, _⟩
  refine (@Pass.unspoilt_changeLiterals base target.node _ classPin
    (·.defaultValue) (fun _ => some target.rigType) indexed.lowering).bind ?_
  intro _ fourth classed
  have toFourth := opened.trans (indexed.trans classed)
  refine (Pass.unspoilt_findPin classed.lowering.toRegular
    (furnished.mono (indexed.trans classed).extended)
    (PrimitivePins.returned_mem_call rfl)).bind ?_
  rintro allocated _ ⟨rfl, hasAllocated⟩
  refine (unspoilt_castToRigType classed.lowering (hasAllocated.gives furnished.added)).bind ?_
  rintro handle last ⟨widened, gives⟩
  exact unspoilt_pure ⟨toFourth.trans widened, gives⟩

/-- The call on the sub-rig that `evaluate` ends with. -/
theorem unspoilt_callOnSubRig {call : NodeId} {specs : List PinSpec} {subRig : PinId}
    (prepared : target.Prepared env base) (lowering : Lowering base target.node before.graph)
    (furnished : Furnished base target.node earlier before.graph call specs)
    (takes : ⟨.input, .object env.registry.base, RuntimeName.target⟩ ∈ specs)
    (returns : ⟨.output, .object env.registry.base, PinName.returnValue⟩ ∈ specs)
    (gives : Gives base earlier (.object target.rigType) subRig) :
    Unspoilt (do
      let rig ← Pass.findPin call RuntimeName.target .input
      Pass.edit (.link subRig rig)
      let evaluated ← Pass.findPin call PinName.returnValue .output
      target.castToRigType evaluated) before fun result after =>
        Bypasses base target.node before.graph after.graph ∧
          Gives base after.graph (.object target.rigType) result := by
  refine (Pass.unspoilt_findPin lowering.toRegular furnished takes).bind ?_
  rintro rig _ ⟨rfl, hasRig⟩
  refine (Pass.unspoilt_link_value lowering furnished gives
    (PinType.referring_ne_exec _ _) hasRig
    prepared.feeds).bind ?_
  intro _ second joined
  refine (Pass.unspoilt_findPin joined.lowering.toRegular (furnished.mono joined.extended)
    returns).bind ?_
  rintro evaluated _ ⟨rfl, hasEvaluated⟩
  refine (unspoilt_castToRigType joined.lowering (hasEvaluated.gives furnished.added)).mono ?_
  rintro result after ⟨widened, resultGives⟩
  exact ⟨joined.trans widened, resultGives⟩

theorem unspoilt_evaluate {subRig : SubRig} {delegate : Option PinId}
    (prepared : target.Prepared env base) (lowering : Lowering base target.node before.graph)
    (gives : Gives base before.graph (.object target.rigType) subRig.pin)
    (gathers : ∀ id, delegate = some id →
      Gives base before.graph (.delegate RuntimeName.gatherSignature) id) :
    Unspoilt (target.evaluate env subRig delegate) before fun result after =>
      Bypasses base target.node before.graph after.graph ∧
        Gives base after.graph (.object target.rigType) result := by
  unfold evaluate
  rw [prepared.standard]
  refine (Pass.unspoilt_spawn lowering rfl).bind ?_
  rintro call first ⟨opened, furnished, _, _⟩
  cases delegate with
  | none =>
      refine (unspoilt_callOnSubRig prepared opened.lowering furnished
        (PrimitivePins.parameter_mem_call ⟨RuntimeName.target, .object env.registry.base⟩
          (.head _)) (PrimitivePins.returned_mem_call rfl) gives).mono ?_
      rintro result after ⟨called, resultGives⟩
      exact ⟨opened.trans called, resultGives⟩
  | some delegate =>
      refine (Pass.unspoilt_findPin opened.lowering.toRegular furnished
        (PrimitivePins.parameter_mem_call
          ⟨RuntimeName.preEvaluate, .delegate RuntimeName.gatherSignature⟩
          (.tail _ (.head _)))).bind ?_
      rintro parameter _ ⟨rfl, hasParameter⟩
      refine (Pass.unspoilt_link_value opened.lowering furnished (gathers delegate rfl)
        (PinType.referring_ne_exec _ _) hasParameter
        (PinType.feeds_self _ _)).bind ?_
      intro _ second joined
      refine (unspoilt_callOnSubRig prepared joined.lowering (furnished.mono joined.extended)
        (PrimitivePins.parameter_mem_call ⟨RuntimeName.target, .object env.registry.base⟩
          (.head _)) (PrimitivePins.returned_mem_call rfl) gives).mono ?_
      rintro result after ⟨called, resultGives⟩
      exact ⟨opened.trans (joined.trans called), resultGives⟩

/-- A pin of the evaluator with the sound field behind it, which has its direction and type. -/
structure Fielded (target : Target) (direction : PinDirection) (graph : Graph)
    (parameter : PinId × Field) : Prop where
  sound : parameter.2.fault? = none
  field : parameter.2.direction = direction
  pin : ∃ face, graph.face? parameter.1 = some face ∧ face.owner = target.node ∧
    face.direction = direction ∧ face.pinType = parameter.2.pinType

theorem Fielded.mono {direction : PinDirection} {graph later : Graph} {parameter : PinId × Field}
    (fielded : target.Fielded direction graph parameter) (extension : graph.Extends later) :
    target.Fielded direction later parameter where
  sound := fielded.sound
  field := fielded.field
  pin := by
    obtain ⟨face, found, rest⟩ := fielded.pin
    exact ⟨face, extension.face?_eq found, rest⟩

theorem Fielded.ready {direction : PinDirection} {graph : Graph} {parameter : PinId × Field}
    {handle : PinId} (fielded : target.Fielded direction graph parameter)
    (lowering : Lowering base target.node graph)
    (gives : Gives base graph (.object target.rigType) handle) (exec : Option PinId) :
    (target.access handle parameter.1 exec).Ready parameter.2 base graph where
  lowering := lowering
  handle := gives
  external := by
    obtain ⟨face, found, owner, toward, pinType⟩ := fielded.pin
    exact ⟨face, found, owner, toward.trans fielded.field.symm, pinType⟩
  sound := fielded.sound
  direct := rfl

theorem unspoilt_parameters (prepared : target.Prepared env base)
    (lowering : Lowering base target.node before.graph) (direction : PinDirection) :
    Unspoilt (target.parameters env direction) before fun parameters after =>
      after.graph = before.graph ∧
        ∀ parameter ∈ parameters, target.Fielded direction before.graph parameter := by
  refine (sturdy_parameters env target direction).unspoilt fun {parameters after} yielded => ?_
  obtain ⟨same, data, found, rfl⟩ := yields_parameters yielded
  refine ⟨same, ?_⟩
  intro parameter member
  obtain ⟨pin, live, owner, toward, hasField⟩ :=
    (mem_parameters_iff lowering.toSound found).mp member
  have faceFound := face?_of_pin? live
  obtain ⟨sound, pinType⟩ := RigRegistry.pinType_of_findField? prepared.built prepared.bound
    (prepared.conforms (lowering.own faceFound owner) owner) hasField.2
  exact ⟨sound, hasField.direction_eq.trans toward, pin.face, faceFound, owner, toward,
    pinType.symm⟩

theorem unspoilt_writeInputs {handle exec : PinId} {parameters : List (PinId × Field)}
    (lowering : Lowering base target.node before.graph)
    (gives : Gives base before.graph (.object target.rigType) handle)
    (fielded : ∀ parameter ∈ parameters, target.Fielded .input before.graph parameter)
    (idle : Idle base before.graph exec) :
    Unspoilt (target.writeInputs handle exec parameters) before fun _ after =>
      Advances base target.node before.graph after.graph := by
  have folded : Unspoilt (parameters.foldlM (fun exec parameter =>
      (target.access handle parameter.1 exec).expand parameter.2) (some exec)) before
        fun _ after => Advances base target.node before.graph after.graph := by
    induction parameters generalizing before exec with
    | nil => exact unspoilt_pure (Bypasses.refl lowering).toAdvances
    | cons parameter rest ih =>
        rw [List.foldlM_cons]
        have first := fielded parameter (by simp)
        refine (FieldAccess.unspoilt_expand_input (first.ready lowering gives (some exec))
          first.field rfl idle).bind ?_
        rintro next middle ⟨advances, onward, rfl, idleNext⟩
        refine (ih advances.lowering (gives.mono advances.extended) ?_ idleNext).mono
          fun _ after others => advances.trans others
        intro other member
        exact (fielded other (List.mem_cons_of_mem _ member)).mono advances.extended
  exact folded.bind fun _ after advances => unspoilt_pure advances

theorem unspoilt_readOutputs {handle : PinId} {parameters : List (PinId × Field)}
    (lowering : Lowering base target.node before.graph)
    (gives : Gives base before.graph (.object target.rigType) handle)
    (fielded : ∀ parameter ∈ parameters, target.Fielded .output before.graph parameter) :
    Unspoilt (target.readOutputs handle parameters) before fun _ after =>
      Advances base target.node before.graph after.graph := by
  unfold readOutputs
  induction parameters generalizing before with
  | nil => exact unspoilt_pure (Bypasses.refl lowering).toAdvances
  | cons parameter rest ih =>
      have first := fielded parameter (by simp)
      have expanded : Unspoilt
          (discard ((target.access handle parameter.1 none).expand parameter.2) : Pass Unit) before
          fun _ after => Advances base target.node before.graph after.graph :=
        (FieldAccess.unspoilt_expand_output (first.ready lowering gives none) first.field).bind
          fun _ after advances => unspoilt_pure advances
      refine expanded.bind fun _ middle advances => ?_
      refine (ih advances.lowering (gives.mono advances.extended) ?_).mono
        fun _ after others => advances.trans others
      intro other member
      exact (fielded other (List.mem_cons_of_mem _ member)).mono advances.extended

theorem unspoilt_expandInputs (prepared : target.Prepared env base)
    (lowering : Lowering base target.node before.graph) :
    Unspoilt (target.expandInputs env) before fun gathered after =>
      Advances base target.node before.graph after.graph ∧
        ∀ inputs, gathered = some inputs →
          Gives base after.graph (.object target.rigType) inputs.subRig.pin ∧
            Gives base after.graph (.delegate RuntimeName.gatherSignature) inputs.delegate := by
  refine (unspoilt_parameters prepared lowering .input).bind ?_
  rintro parameters first ⟨same, fielded⟩
  rw [← same] at lowering fielded ⊢
  split
  · exact unspoilt_pure ⟨(Bypasses.refl lowering).toAdvances, fun _ given => by cases given⟩
  · refine (unspoilt_allocate prepared lowering).bind ?_
    rintro subRig second ⟨opened, gives⟩
    rw [prepared.standard]
    refine (Pass.unspoilt_spawnEvent opened.lowering).bind ?_
    rintro event third ⟨widened, furnished, exits⟩
    have toThird := opened.trans widened
    have delegates : (⟨.output, .delegate RuntimeName.gatherSignature,
        PinName.outputDelegate⟩ : PinSpec) ∈ PrimitivePins.event RuntimeName.gatherSignature := by
      simp [PrimitivePins.event]
    have continues : (⟨.output, .exec, PinName.continuation⟩ : PinSpec) ∈
        PrimitivePins.event RuntimeName.gatherSignature := by
      simp [PrimitivePins.event]
    refine (Pass.unspoilt_findPin widened.lowering.toRegular furnished continues).bind ?_
    rintro exec _ ⟨rfl, hasExec⟩
    obtain ⟨id, hasExit, idle⟩ := exits _ continues
    obtain rfl := hasExit.eq_of_port widened.lowering.toRegular hasExec.port
    refine (unspoilt_writeInputs widened.lowering (gives.mono widened.extended)
      (fun parameter member => (fielded parameter member).mono toThird.extended) idle).bind ?_
    intro _ fourth written
    refine (Pass.unspoilt_findPin written.lowering.toRegular (furnished.mono written.extended)
      delegates).bind ?_
    rintro delegate _ ⟨rfl, hasDelegate⟩
    refine unspoilt_pure ⟨toThird.toAdvances.trans written, ?_⟩
    rintro _ ⟨⟩
    exact ⟨gives.mono (widened.toAdvances.trans written).extended,
      hasDelegate.gives furnished.added⟩

/-- What is done once the sub-rig is there. -/
theorem unspoilt_readFrom {subRig : SubRig} {delegate : Option PinId}
    (prepared : target.Prepared env base) (lowering : Lowering base target.node before.graph)
    (gives : Gives base before.graph (.object target.rigType) subRig.pin)
    (gathers : ∀ id, delegate = some id →
      Gives base before.graph (.delegate RuntimeName.gatherSignature) id) :
    Unspoilt (do
      let rig ← Pass.findPin target.node PinName.rig .output
      Pass.transferPin rig subRig.pin
      let result ← target.evaluate env subRig delegate
      target.readOutputs result (← target.parameters env .output)
      return subRig.index) before fun _ _ => True := by
  have found : Unspoilt (Pass.findPin target.node PinName.rig .output) before fun id after =>
      after = before ∧ before.graph.Port target.node .output PinName.rig id := by
    refine (Pass.sturdy_query fun graph => graph.firm_findPin _ _ _).unspoilt fun yielded => ?_
    obtain ⟨same, searched⟩ := Pass.yields_query_iff.mp yielded
    exact ⟨same, findPin_eq_ok lowering.toSound searched⟩
  refine found.bind ?_
  rintro rig _ ⟨rfl, face, rigFound, owner, isOutput, named⟩
  have rigType : face.pinType = .object target.rigType :=
    RigRegistry.pinType_of_name_rig prepared.built prepared.bound
      (prepared.conforms (lowering.own rigFound owner) owner) named
  obtain ⟨handleFace, handleFound, added, handleOutput, handleType⟩ := gives
  refine (Pass.unspoilt_transferPin lowering rigFound owner ?_ handleFound added
    (handleOutput.trans isOutput.symm) (handleType.trans rigType.symm)).bind ?_
  · rw [rigType]
    exact PinType.referring_ne_exec _ _
  intro _ second transferred
  have givesThen := Gives.mono ⟨handleFace, handleFound, added, handleOutput, handleType⟩
    transferred.extended
  refine (unspoilt_evaluate prepared transferred.lowering givesThen fun id given =>
    (gathers id given).mono transferred.extended).bind ?_
  rintro result third ⟨evaluated, resultGives⟩
  refine (unspoilt_parameters prepared evaluated.lowering .output).bind ?_
  rintro parameters fourth ⟨same, fielded⟩
  rw [← same] at fielded resultGives evaluated
  refine (unspoilt_readOutputs evaluated.lowering resultGives fielded).bind ?_
  intro _ fifth _
  exact unspoilt_pure trivial

/-- No refused link spoils the expansion of a prepared evaluator. -/
theorem unspoilt_expand (prepared : target.Prepared env before.graph)
    (lowering : Lowering before.graph target.node before.graph) :
    Unspoilt (target.expand env) before fun _ _ => True := by
  refine (unspoilt_expandInputs prepared lowering).bind ?_
  rintro gathered first ⟨advances, gives⟩
  have outputs : Unspoilt (target.expandOutputs env gathered) first fun _ _ => True := by
    cases gathered with
    | none =>
        refine (unspoilt_allocate prepared advances.lowering).bind ?_
        rintro subRig second ⟨opened, subRigGives⟩
        exact unspoilt_readFrom prepared opened.lowering subRigGives fun _ given => by cases given
    | some inputs =>
        obtain ⟨subRigGives, delegateGives⟩ := gives inputs rfl
        exact unspoilt_readFrom prepared advances.lowering subRigGives fun _ given => by
          cases given
          exact delegateGives
  exact outputs.bind_sturdy fun _ =>
    (Pass.sturdy_edit (Edit.sturdy_unlinkNode target.node)).bind fun _ =>
      (Pass.sturdy_edit (Edit.sturdy_modifyNode target.node _)).bind fun _ => sturdy_pure _

end Target

end RigLowering
