import RigLowering.Proofs.FieldWrites
import RigLowering.Proofs.PinLookups

namespace RigLowering

namespace Graph

/-- Regular graphs that have grown out of a graph only grow further in an expansion. -/
theorem durable_grown (base : Graph) : Durable fun graph => graph.Regular ∧ base.Extends graph where
  withNode := fun kind source grown =>
    ⟨grown.1.withNode kind source, grown.2.trans (withNode_extends _ kind source)⟩
  withSettings := fun node change grown =>
    ⟨grown.1.withSettings node change, grown.2.trans (Edit.changeSettings_extends node change _)⟩
  withPin := fun grown found free =>
    ⟨grown.1.withPin found free, grown.2.trans (withPin_extends _ _ _ _ _)⟩
  withLiterals := by
    intro graph pin value object grown
    have frame : graph.SameFrame (graph.changePin pin (·.setLiterals value object)) :=
      graph.changePin_sameFrame pin fun _ => rfl
    exact ⟨kept_regular.withLiterals pin value object grown.1, grown.2.trans frame.extended⟩
  link := fun a b graph grown =>
    ⟨Edit.link_keeps_regular a b graph grown.1,
      grown.2.trans (Edit.link_frame a b graph).extended⟩
  unlink := fun a b graph grown =>
    ⟨Edit.unlink_keeps_regular a b graph grown.1,
      grown.2.trans (Edit.unlink_frame a b graph).extended⟩
  unlinkPin := fun pin graph grown =>
    ⟨Edit.unlinkPin_keeps_regular pin graph grown.1,
      grown.2.trans (Edit.unlinkPin_frame grown.1.toSound pin).extended⟩
  checkpoint := fun grown => ⟨grown.1.checkpoint, grown.2.trans (checkpoint_sameFrame _).extended⟩
  commit := fun grown => ⟨grown.1.commit, grown.2.trans (commit_sameFrame _).extended⟩

end Graph

namespace Pass

open RigLowering.Graph

/-- Wherever the graph has grown out of `base`, the step looks for no pin in vain but where `lacks`
says so. -/
def Supplied {α : Type} (lacks : NodeId → String → Prop) (base : Graph) (step : Pass α) : Prop :=
  ∀ before node name after, before.graph.Regular → base.Extends before.graph →
    step before = (.error (.missingPin node name), after) → lacks node name

section Supplied

variable {α β : Type} {lacks : NodeId → String → Prop} {base grown : Graph} {step first : Pass α}
  {next : α → Pass β}

theorem Supplied.of_certain (certain : Certain step) : Supplied lacks base step := by
  intro before node name after _ _ failed
  exact (certain before node name (congrArg Prod.fst failed)).elim

theorem Supplied.mono (supplied : Supplied lacks base step) (extension : base.Extends grown) :
    Supplied lacks grown step :=
  fun before node name after regular grownExtends =>
    supplied before node name after regular (extension.trans grownExtends)

theorem supplied_pure (value : α) : Supplied lacks base (pure value : Pass α) :=
  .of_certain (certain_pure value)

/-- The second step is supplied in what the first one yields, whatever that is. -/
theorem Supplied.bind_of_yields (supplied : Supplied lacks base first)
    (nextSupplied : ∀ {before value middle}, before.graph.Regular → base.Extends before.graph →
      Yields first before value middle →
        middle.graph.Regular ∧ Supplied lacks middle.graph (next value)) :
    Supplied lacks base (first >>= next) := by
  intro before node name after regular extension failed
  rw [bind_apply] at failed
  cases ran : first before with
  | mk result middle =>
      rw [ran] at failed
      cases result with
      | error error =>
          cases failed
          exact supplied before node name after regular extension ran
      | ok value =>
          obtain ⟨middleRegular, rest⟩ := nextSupplied regular extension ran
          exact rest middle node name after middleRegular (.refl _) failed

theorem Supplied.bind (composed : first.Composed) (supplied : Supplied lacks base first)
    (nextSupplied : ∀ value, Supplied lacks base (next value)) :
    Supplied lacks base (first >>= next) := by
  refine supplied.bind_of_yields fun {before value middle} regular extension yielded => ?_
  obtain ⟨middleRegular, grown⟩ :=
    ((durable_grown base).pass composed).holds_after yielded ⟨regular, extension⟩
  exact ⟨middleRegular, (nextSupplied value).mono grown⟩

theorem Supplied.bind_certain (composed : first.Composed) (certain : Certain first)
    (nextSupplied : ∀ value, Supplied lacks base (next value)) :
    Supplied lacks base (first >>= next) :=
  .bind composed (.of_certain certain) nextSupplied

theorem Supplied.discard (composed : step.Composed) (supplied : Supplied lacks base step) :
    Supplied lacks base (Functor.discard step : Pass Unit) :=
  .bind composed supplied fun _ => supplied_pure _

theorem Supplied.forM {step : α → Pass PUnit} (composed : ∀ value, (step value).Composed)
    (supplied : ∀ value, Supplied lacks base (step value)) (values : List α) :
    Supplied lacks base (values.forM step) := by
  induction values with
  | nil => exact supplied_pure _
  | cons value rest ih => exact .bind (composed value) (supplied value) fun _ => ih

theorem Supplied.foldlM {step : β → α → Pass β}
    (composed : ∀ result value, (step result value).Composed)
    (supplied : ∀ result value, Supplied lacks base (step result value)) (result : β)
    (values : List α) : Supplied lacks base (values.foldlM step result) := by
  induction values generalizing result with
  | nil => exact supplied_pure _
  | cons value rest ih =>
      rw [List.foldlM_cons]
      exact .bind (composed result value) (supplied result value) fun _ => ih _

theorem supplied_findPin {node : NodeId} {specs : List PinSpec} {spec : PinSpec}
    (bears : Bears base node specs) (listed : spec ∈ specs) :
    Supplied lacks base (Pass.findPin node spec.name spec.direction) := by
  intro before missing name after regular extension failed
  obtain ⟨id, port⟩ := bears spec listed
  exact (finds_findPin regular.toSound (port.mono extension) missing name
    (congrArg Prod.fst failed)).elim

/-- What follows on a lookup that finds a pin does not depend on which pin it is. -/
theorem Supplied.findPin {node : NodeId} {specs : List PinSpec} {spec : PinSpec}
    {next : PinId → Pass β} (bears : Bears base node specs) (listed : spec ∈ specs)
    (nextSupplied : ∀ id, Supplied lacks base (next id)) :
    Supplied lacks base (Pass.findPin node spec.name spec.direction >>= next) :=
  .bind (.findPin _ _ _) (supplied_findPin bears listed) nextSupplied

theorem Supplied.spawn {kind : NodeKind} {specs : List PinSpec} {source : NodeId}
    {next : NodeId → Pass β} (primitive : kind.settings? = none)
    (nextSupplied : ∀ node grown, base.Extends grown → Spawned base grown source kind node →
      Bears grown node specs → Supplied lacks grown (next node)) :
    Supplied lacks base (Pass.spawn kind specs source >>= next) := by
  refine (Supplied.of_certain (certain_spawn kind specs source)).bind_of_yields
    fun {before node middle} regular extension yielded => ?_
  have makes := spawn_makes regular primitive yielded
  refine ⟨makes.regular, nextSupplied node middle.graph (extension.trans makes.extended)
    (makes.spawned.since extension) fun spec listed => ?_⟩
  obtain ⟨id, hasPin⟩ := makes.bears spec listed
  exact ⟨id, hasPin.port⟩

theorem Supplied.spawnEvent {signature name : String} {source : NodeId} {next : NodeId → Pass β}
    (nextSupplied : ∀ node grown, base.Extends grown →
      Bears grown node (PrimitivePins.event signature) → Supplied lacks grown (next node)) :
    Supplied lacks base (Pass.spawnEvent source signature name >>= next) := by
  refine (Supplied.of_certain (certain_spawnEvent source signature name)).bind_of_yields
    fun {before node middle} regular extension yielded => ?_
  obtain ⟨_, makes⟩ := spawnEvent_makes regular yielded
  refine ⟨makes.regular, nextSupplied node middle.graph (extension.trans makes.extended)
    fun spec listed => ?_⟩
  obtain ⟨id, hasPin⟩ := makes.bears spec listed
  exact ⟨id, hasPin.port⟩

end Supplied

end Pass

namespace FieldAccess

open RigLowering.Graph RigLowering.Pass

variable {lacks : NodeId → String → Prop} {base : Graph} {node : NodeId} {specs : List PinSpec}
  (access : FieldAccess) (field : Field)

theorem certain_routeValue (value : PinId) : Certain (access.routeValue value) := by
  unfold routeValue
  split
  · exact certain_link _ _
  · exact certain_transferPin _ _

theorem supplied_attachHandle (bears : Bears base node specs)
    (listed : ⟨.input, .object access.owner, PinName.self⟩ ∈ specs) :
    Supplied lacks base (access.attachHandle node) :=
  .findPin bears listed fun _ => .of_certain (certain_link _ _)

theorem supplied_spliceExec {name : String} (exec : Option PinId)
    (bears : Bears base node (access.writePins field name)) :
    Supplied lacks base (spliceExec exec node) := by
  refine .findPin bears (access.execute_mem_writePins field name) fun execute =>
    .findPin bears (access.continuation_mem_writePins field name) fun continuation => ?_
  cases exec with
  | none => exact supplied_pure _
  | some exec =>
      exact .bind_certain (.edit (.transferLinks _ _))
        (certain_edit (Edit.certain_transferLinks _ _)) fun _ =>
          .bind_certain (.link _ _) (certain_link _ _) fun _ => supplied_pure _

/-- What every write ends with. -/
theorem supplied_sequence {name : String} (bears : Bears base node (access.writePins field name)) :
    Supplied lacks base (do
      access.attachHandle node
      spliceExec access.exec node) :=
  .bind (.attachHandle _ _)
    (access.supplied_attachHandle bears (access.self_mem_writePins field name)) fun _ =>
      access.supplied_spliceExec field _ bears

/-- A write by one node, of whatever kind. -/
theorem supplied_writeBy {kind : NodeKind} {name : String} (primitive : kind.settings? = none) :
    Supplied lacks base (do
      let node ← Pass.spawn kind (access.writePins field name) access.source
      let value ← Pass.findPin node name .input
      access.routeValue value
      access.attachHandle node
      spliceExec access.exec node) :=
  .spawn primitive fun _ _ _ _ bears =>
    .findPin bears (access.value_mem_writePins field name) fun _ =>
      .bind_certain (.routeValue _ _) (access.certain_routeValue _) fun _ =>
        access.supplied_sequence field bears

theorem supplied_writeValue : Supplied lacks base (access.writeValue field) :=
  access.supplied_writeBy field rfl

theorem supplied_writeDelegate : Supplied lacks base (access.writeDelegate field) :=
  access.supplied_writeBy field rfl

theorem supplied_writeCopy : Supplied lacks base (access.writeCopy field) := by
  refine .spawn rfl fun copy copied _ _ copyBears =>
    .findPin copyBears (PrimitivePins.item_mem_copy field.pinType) fun item =>
      .findPin copyBears (PrimitivePins.returned_mem_copy field.pinType) fun returned =>
        .bind_certain (.routeValue _ _) (access.certain_routeValue _) fun _ => ?_
  refine .spawn rfl fun setter grown _ _ bears =>
    .findPin bears (access.value_mem_writePins field field.name) fun value =>
      .bind_certain (.link _ _) (certain_link _ _) fun _ => ?_
  exact access.supplied_sequence field bears

theorem supplied_readValue : Supplied lacks base (access.readValue field) :=
  .spawn rfl fun _ _ _ _ bears =>
    .findPin bears (PrimitivePins.value_mem_getField access.owner field) fun _ =>
      .bind (.attachHandle _ _) (access.supplied_attachHandle bears
        (PrimitivePins.self_mem_getField access.owner field)) fun _ =>
          .bind_certain (.transferPin _ _) (certain_transferPin _ _) fun _ => supplied_pure _

theorem supplied_readCopy : Supplied lacks base (access.readCopy field) := by
  refine .spawn rfl fun getter grown _ _ bears =>
    .findPin bears (PrimitivePins.value_mem_getField access.owner field) fun value =>
      .bind (.attachHandle _ _) (access.supplied_attachHandle bears
        (PrimitivePins.self_mem_getField access.owner field)) fun _ => ?_
  refine .spawn rfl fun copy copied _ _ copyBears =>
    .findPin copyBears (PrimitivePins.item_mem_copy field.pinType) fun item =>
      .findPin copyBears (PrimitivePins.returned_mem_copy field.pinType) fun returned => ?_
  exact .bind_certain (.link _ _) (certain_link _ _) fun _ =>
    .bind_certain (.transferPin _ _) (certain_transferPin _ _) fun _ => supplied_pure _

theorem supplied_expand : Supplied lacks base (access.expand field) := by
  unfold expand
  split
  · exact access.supplied_writeValue field
  · exact access.supplied_writeValue field
  · exact access.supplied_writeCopy field
  · exact access.supplied_writeDelegate field
  · exact access.supplied_readValue field
  · exact access.supplied_readCopy field
  · exact access.supplied_readCopy field
  · exact .of_certain (certain_throw fun _ _ same => by cases same)

end FieldAccess

namespace Target

open RigLowering.Graph RigLowering.Pass

/-- What the evaluator can lack in `base`. -/
def LacksRig (target : Target) (base : Graph) (node : NodeId) (name : String) : Prop :=
  node = target.node ∧ name = PinName.rig ∧ ∀ id, ¬ base.Port target.node .output PinName.rig id

variable {lacks : NodeId → String → Prop} {base : Graph} (target : Target)

theorem supplied_castToRigType (object : PinId) :
    Supplied lacks base (target.castToRigType object) := by
  have source : (⟨.input, .anyObject, PinName.castSource⟩ : PinSpec) ∈
      PrimitivePins.cast target.rigType true := by
    simp [PrimitivePins.cast]
  have result : (⟨.output, .object target.rigType, PinName.castResult target.rigType⟩ : PinSpec) ∈
      PrimitivePins.cast target.rigType true := by
    simp [PrimitivePins.cast]
  refine .spawn rfl fun cast grown _ spawned bears =>
    .bind (.query (steady_findPin _ _ _)) (supplied_findPin bears source) fun _ =>
      .bind_certain (.link _ _) (certain_link _ _) fun _ => ?_
  intro before node name after regular extension failed
  obtain ⟨id, port⟩ := bears _ result
  obtain ⟨_, data, found, kind, _⟩ := spawned.mono rfl extension
  have search : before.graph.castResult cast = .error (.missingPin node name) :=
    congrArg Prod.fst failed
  rcases bind_eq_error_iff.mp search with absent | ⟨other, read, searched⟩
  · exact (before.graph.finds_node cast node name absent).elim
  · cases (node_eq_ok_iff.mp read).symm.trans found
    rw [kind] at searched
    exact (finds_findPin regular.toSound (port.mono extension) node name searched).elim

/-- The call on the sub-rig that `evaluate` ends with. -/
theorem supplied_callOnSubRig {call : NodeId} {specs : List PinSpec} {baseClass : String}
    {subRig : PinId} (bears : Bears base call specs)
    (takes : ⟨.input, .object baseClass, RuntimeName.target⟩ ∈ specs)
    (returns : ⟨.output, .object baseClass, PinName.returnValue⟩ ∈ specs) :
    Supplied lacks base (do
      let rig ← Pass.findPin call RuntimeName.target .input
      Pass.edit (.link subRig rig)
      let evaluated ← Pass.findPin call PinName.returnValue .output
      target.castToRigType evaluated) :=
  .findPin bears takes fun _ => .bind_certain (.link _ _) (certain_link _ _) fun _ =>
    .findPin bears returns fun _ => target.supplied_castToRigType _

theorem supplied_rig : Supplied (target.LacksRig base) base
    (Pass.findPin target.node PinName.rig .output) := by
  intro before missing name after regular extension failed
  obtain ⟨sameNode, sameName, portless⟩ :=
    findPin_eq_missingPin regular.toSound (congrArg Prod.fst failed)
  exact ⟨sameNode, sameName, fun id port => portless id (port.mono extension)⟩

theorem supplied_writeInputs (handle exec : PinId) (parameters : List (PinId × Field)) :
    Supplied lacks base (target.writeInputs handle exec parameters) :=
  .discard (.foldlM (fun _ _ => .expandField _ _) _ _)
    (.foldlM (fun _ _ => .expandField _ _) (fun _ _ => FieldAccess.supplied_expand _ _) _ _)

theorem supplied_readOutputs (result : PinId) (parameters : List (PinId × Field)) :
    Supplied lacks base (target.readOutputs result parameters) :=
  .forM (fun _ => (Composed.expandField _ _).discard)
    (fun _ => .discard (.expandField _ _) (FieldAccess.supplied_expand _ _)) _

variable {env : Environment} {baseClass : String} (standard : env.runtime = .standard baseClass)

include standard

theorem supplied_allocate : Supplied lacks base (target.allocate env) := by
  unfold allocate
  rw [standard]
  refine .spawn rfl fun call grown _ _ bears =>
    .bind_certain .takeIndex certain_takeIndex fun index =>
      .findPin bears
        (PrimitivePins.parameter_mem_call ⟨RuntimeName.allocationIndex, .int⟩ (.head _))
          fun indexPin => ?_
  refine .bind_certain (.edit (.changeLiterals _ (fun _ => some _) (·.defaultObject)))
    (certain_modifyPin _ _) fun _ => .findPin bears (PrimitivePins.parameter_mem_call
      ⟨RuntimeName.rigClass, .classOf baseClass⟩ (.tail _ (.head _))) fun classPin => ?_
  refine .bind_certain (.edit (.changeLiterals _ (·.defaultValue) (fun _ => some _)))
    (certain_modifyPin _ _) fun _ =>
      .findPin bears (PrimitivePins.returned_mem_call rfl) fun allocated => ?_
  exact .bind (.castToRigType _ _) (target.supplied_castToRigType _) fun _ => supplied_pure _

theorem supplied_evaluate (subRig : SubRig) (delegate : Option PinId) :
    Supplied lacks base (target.evaluate env subRig delegate) := by
  have takesTarget (function : FunctionSignature)
      (listed : ⟨RuntimeName.target, .object baseClass⟩ ∈ function.parameters) :
      (⟨.input, .object baseClass, RuntimeName.target⟩ : PinSpec) ∈
        PrimitivePins.call function true :=
    PrimitivePins.parameter_mem_call ⟨RuntimeName.target, .object baseClass⟩ listed
  unfold evaluate
  rw [standard]
  refine .spawn rfl fun call grown _ _ bears => ?_
  cases delegate with
  | none =>
      exact target.supplied_callOnSubRig bears (takesTarget _ (.head _))
        (PrimitivePins.returned_mem_call rfl)
  | some delegate =>
      exact .findPin bears (PrimitivePins.parameter_mem_call
        ⟨RuntimeName.preEvaluate, .delegate RuntimeName.gatherSignature⟩ (.tail _ (.head _)))
          fun _ => .bind_certain (.link _ _) (certain_link _ _) fun _ =>
            target.supplied_callOnSubRig bears (takesTarget _ (.head _))
              (PrimitivePins.returned_mem_call rfl)

theorem supplied_expandInputs : Supplied lacks base (target.expandInputs env) := by
  refine .bind_certain (.parameters _ _ _) (certain_parameters _ _ _) fun parameters => ?_
  split
  · exact supplied_pure _
  · refine .bind (.allocate _ _) (target.supplied_allocate standard) fun subRig => ?_
    refine .spawnEvent fun event grown _ bears => ?_
    have continuation : (⟨.output, .exec, PinName.continuation⟩ : PinSpec) ∈
        PrimitivePins.event env.runtime.gatherSignature := by
      simp [PrimitivePins.event]
    have delegate : (⟨.output, .delegate env.runtime.gatherSignature, PinName.outputDelegate⟩ :
        PinSpec) ∈ PrimitivePins.event env.runtime.gatherSignature := by
      simp [PrimitivePins.event]
    exact .findPin bears continuation fun _ =>
      .bind (.writeInputs _ _ _ _) (target.supplied_writeInputs _ _ _) fun _ =>
        .findPin bears delegate fun _ => supplied_pure _

theorem supplied_expandOutputs (gathered : Option GatheredInputs) :
    Supplied (target.LacksRig base) base (target.expandOutputs env gathered) := by
  have rest (subRig : SubRig) : Supplied (target.LacksRig base) base (do
      let rig ← Pass.findPin target.node PinName.rig .output
      Pass.transferPin rig subRig.pin
      let result ← target.evaluate env subRig (gathered.map (·.delegate))
      target.readOutputs result (← target.parameters env .output)
      return subRig.index) :=
    .bind (.findPin _ _ _) target.supplied_rig fun _ =>
      .bind_certain (.transferPin _ _) (certain_transferPin _ _) fun _ =>
        .bind (.evaluate _ _ _ _) (target.supplied_evaluate standard _ _) fun _ =>
          .bind_certain (.parameters _ _ _) (certain_parameters _ _ _) fun _ =>
            .bind (.readOutputs _ _ _) (target.supplied_readOutputs _ _) fun _ => supplied_pure _
  cases gathered with
  | none => exact .bind (.allocate _ _) (target.supplied_allocate standard) rest
  | some gathered => exact .bind (.pure _) (supplied_pure _) rest

theorem supplied_expand : Supplied (target.LacksRig base) base (target.expand env) :=
  .bind (.expandInputs _ _) (target.supplied_expandInputs standard) fun _ =>
    .bind (.expandOutputs _ _ _) (target.supplied_expandOutputs standard _) fun _ =>
      .bind_certain (.edit (.unlinkNode _)) (certain_edit (Edit.certain_unlinkNode _)) fun _ =>
        .bind_certain (.edit (.changeSettings _ _)) (certain_edit (Edit.certain_modifyNode _ _))
          fun _ => supplied_pure _

end Target

namespace Environment

open RigLowering.Graph

variable {env : Environment} {baseClass : String} {node missing : NodeId} {name : String}
  {before after : PassState}

theorem finds_target (env : Environment) (fullCompile : Bool) (graph : Graph) (node : NodeId) :
    Finds (env.target fullCompile graph node) := by
  cases fullCompile with
  | false => exact finds_ok _
  | true =>
      refine (graph.finds_node node).bind fun data => ?_
      split
      · exact finds_ok _
      · split
        · exact finds_ok _
        · split
          · exact finds_ok _
          · exact finds_ok _

/-- The one pin that an expansion can miss is the sub-rig output of an evaluator that it has begun
to expand. -/
theorem expandNode_eq_missingPin (standard : env.runtime = .standard baseClass)
    (regular : before.graph.Regular)
    (failed : env.expandNode node before = (.error (.missingPin missing name), after)) :
    ∃ target, env.target before.fullCompile before.graph node = .ok (.inr target) ∧
      target.LacksRig before.graph missing name := by
  have queried : Pass.query (env.target before.fullCompile · node) before =
    (env.target before.fullCompile before.graph node, before) := rfl
  rw [expandNode, bind_apply] at failed
  change (Pass.query (env.target before.fullCompile · node) >>= _) before = _ at failed
  rw [bind_apply, queried] at failed
  cases answered : env.target before.fullCompile before.graph node with
  | error error =>
      rw [answered] at failed
      cases failed
      exact (env.finds_target _ _ _ _ _ answered).elim
  | ok found =>
      rw [answered] at failed
      cases found with
      | inl reason => cases failed
      | inr target =>
          exact ⟨target, rfl, target.supplied_expand standard before missing name after regular
            (.refl _) failed⟩

/-- A pass that ends early has done with the composites before the one where it ends. -/
theorem foldlM_compileNode_eq_error {composites : List NodeId} {progress : PassState × Tally}
    {error : Error} (failed : composites.foldlM env.compileNode progress = .error error) :
    ∃ done node rest middle, composites = done ++ node :: rest ∧
      done.foldlM env.compileNode progress = .ok middle ∧
      env.compileNode middle node = .error error := by
  induction composites generalizing progress with
  | nil => cases failed
  | cons first others ih =>
      rw [List.foldlM_cons] at failed
      rcases bind_eq_error_iff.mp failed with here | ⟨next, stepped, later⟩
      · exact ⟨[], first, others, progress, rfl, rfl, here⟩
      · obtain ⟨done, node, rest, middle, rfl, ran, broken⟩ := ih later
        refine ⟨first :: done, node, rest, middle, rfl, ?_, broken⟩
        rw [List.foldlM_cons]
        exact bind_eq_ok_iff.mpr ⟨next, stepped, ran⟩

end Environment

namespace Graph

variable {graph : Graph} {registry : RigRegistry} {runtime : RigRuntime} {options : PassOptions}
  {node missing : NodeId} {name : String}

/-- A regular graph passes both audits, so that only the composites can end the pass. -/
theorem compile_eq_aborted {cause : Error} (regular : graph.Regular)
    (failed : graph.compile registry runtime options = .error (.aborted node cause)) :
    graph.composites.foldlM (Environment.compileNode ⟨registry, runtime⟩)
      (.start registry options graph, .zero) = .error (.aborted node cause) := by
  have audited {other : Graph} (sound : other.Sound) :
      other.auditIf options.audited = .ok () := by
    unfold auditIf
    split
    · exact audit_eq_ok_iff.mpr sound
    · rfl
  rcases bind_eq_error_iff.mp failed with corrupt | ⟨_, _, afterAudit⟩
  · cases (audited regular.toSound).symm.trans corrupt
  rcases bind_eq_error_iff.mp afterAudit with mismatch | ⟨env, agreed, afterEnvironment⟩
  · unfold Environment.of at mismatch
    split at mismatch
    · cases mismatch
    · cases mismatch
  unfold Environment.of at agreed
  split at agreed
  · cases agreed
    rcases bind_eq_error_iff.mp afterEnvironment with early | ⟨final, ran, finishing⟩
    · exact early
    rcases bind_eq_error_iff.mp finishing with corrupt | ⟨_, _, returned⟩
    · have started : (PassState.start registry options graph).graph.Sound :=
        regular.toSound.of_roster (fun _ => rfl) (fun _ => rfl) fun _ => rfl
      cases (audited (durable_sound.foldlM_compileNode ran started)).symm.trans corrupt
    · cases returned
  · cases agreed

/-- A pass ends for want of a pin only where it comes to an evaluator of a registered class that has
no sub-rig output, and then it is that output. -/
theorem compile_eq_missingPin {baseClass : String} (regular : graph.Regular)
    (failed : graph.compile registry (.standard baseClass) options =
      .error (.aborted node (.missingPin missing name))) :
    ∃ target, (⟨registry, .standard baseClass⟩ : Environment).target true graph node =
        .ok (.inr target) ∧ target.LacksRig graph missing name := by
  obtain ⟨done, last, rest, middle, split, reached, broken⟩ :=
    Environment.foldlM_compileNode_eq_error (compile_eq_aborted regular failed)
  obtain ⟨cause, after, same, expanding⟩ := Environment.compileNode_eq_error broken
  cases same
  have nodup := regular.composites_nodup
  rw [split] at nodup
  obtain ⟨doneNodup, _, apart⟩ := List.nodup_append.mp nodup
  obtain ⟨expanded, lands, progresses⟩ := Environment.progresses_foldlM doneNodup
    (fun other member => regular.mem_composites_lt (by simp [split, member])) rfl rfl
    (.begin regular done) reached
  have rewired : Rewired graph middle.1.checkpoint.graph expanded lands :=
    progresses.rewired.of_links_eq middle.1.graph.checkpoint_sameFrame fun _ => rfl
  obtain ⟨target, found, lacks⟩ :=
    Environment.expandNode_eq_missingPin rfl rewired.regular expanding
  have old : node.index < graph.nodes.size := regular.mem_composites_lt (by simp [split])
  have fresh : node ∉ expanded := fun member =>
    apart node (progresses.expanded_iff.mp member).1 node (by simp) rfl
  refine ⟨target, ?_, lacks.1, lacks.2.1, fun id port => lacks.2.2 id (port.mono rewired.extended)⟩
  rw [← Environment.target_congr (rewired.keeps old fresh), ← (Environment.target_eq_inr found).1]
  exact found

end Graph

end RigLowering
