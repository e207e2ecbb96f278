import RigLowering.Proofs.Lowering

namespace RigLowering

namespace PrimitivePins

theorem item_mem_copy (pinType : PinType) :
    ⟨.input, pinType, PinName.item⟩ ∈ copy pinType := by
  simp [copy]

theorem returned_mem_copy (pinType : PinType) :
    ⟨.output, pinType, PinName.returnValue⟩ ∈ copy pinType := by
  simp [copy]

theorem self_mem_getField (owner : String) (field : Field) :
    ⟨.input, .object owner, PinName.self⟩ ∈ getField owner field := by
  simp [getField]

theorem value_mem_getField (owner : String) (field : Field) :
    ⟨.output, field.pinType, field.name⟩ ∈ getField owner field := by
  simp [getField]

section Call

variable {function : FunctionSignature} {isPure : Bool}

theorem parameter_mem_call (parameter : FunctionParameter)
    (listed : parameter ∈ function.parameters) :
    ⟨.input, parameter.pinType, parameter.name⟩ ∈ call function isPure :=
  List.mem_append_left _ (List.mem_append_right _ (List.mem_map_of_mem listed))

theorem returned_mem_call {pinType : PinType} (returns : function.returnType = some pinType) :
    ⟨.output, pinType, PinName.returnValue⟩ ∈ call function isPure := by
  simp [call, returns]

end Call

end PrimitivePins

namespace FieldAccess

open RigLowering.Graph

/-- The external pin of the evaluator has the type of the field, and the handle that of the
owner. -/
structure Ready (access : FieldAccess) (field : Field) (base graph : Graph) : Prop where
  lowering : Lowering base access.source graph
  handle : Gives base graph (.object access.owner) access.handle
  external : ∃ face, graph.face? access.external = some face ∧ face.owner = access.source ∧
    face.direction = field.direction ∧ face.pinType = field.pinType
  sound : field.fault? = none
  direct : access.isEventOutput = false

variable {base earlier : Graph} {access : FieldAccess} {field : Field} {node : NodeId}
  {specs : List PinSpec} {before : PassState}

theorem Ready.advance {graph later : Graph} (ready : access.Ready field base graph)
    (advances : Advances base access.source graph later) : access.Ready field base later where
  lowering := advances.lowering
  handle := ready.handle.mono advances.extended
  external := by
    obtain ⟨face, found, rest⟩ := ready.external
    exact ⟨face, advances.extended.face?_eq found, rest⟩
  sound := ready.sound
  direct := ready.direct

theorem Ready.value (ready : access.Ready field base before.graph) : field.pinType ≠ .exec := by
  intro same
  apply Field.category_ne_exec ready.sound
  rw [same]
  rfl

theorem Ready.unspoilt_transferPin (ready : access.Ready field base before.graph) {name : String}
    {dest : PinId} (added : base.nodes.size ≤ node.index)
    (hasPin : before.graph.HasPin node ⟨field.direction, field.pinType, name⟩ dest) :
    Unspoilt (Pass.transferPin access.external dest) before fun _ after =>
      Bypasses base access.source before.graph after.graph := by
  obtain ⟨face, found, owner, direction, pinType⟩ := ready.external
  obtain ⟨destFace, destFound, rfl, spec⟩ := hasPin
  have destDirection : destFace.direction = field.direction := congrArg PinSpec.direction spec
  have destType : destFace.pinType = field.pinType := congrArg PinSpec.pinType spec
  exact Pass.unspoilt_transferPin ready.lowering found owner (pinType ▸ ready.value) destFound added
    (destDirection.trans direction.symm) (destType.trans pinType.symm)

theorem Ready.unspoilt_routeValue (ready : access.Ready field base before.graph) {name : String}
    {dest : PinId} (added : base.nodes.size ≤ node.index)
    (hasPin : before.graph.HasPin node ⟨field.direction, field.pinType, name⟩ dest) :
    Unspoilt (access.routeValue dest) before fun _ after =>
      Bypasses base access.source before.graph after.graph := by
  unfold routeValue
  rw [if_neg (by simp [ready.direct])]
  exact ready.unspoilt_transferPin added hasPin

theorem unspoilt_attachHandle (lowering : Lowering base access.source before.graph)
    (furnished : Furnished base access.source earlier before.graph node specs)
    (listed : ⟨.input, .object access.owner, PinName.self⟩ ∈ specs)
    (handle : Gives base earlier (.object access.owner) access.handle) :
    Unspoilt (access.attachHandle node) before fun _ after =>
      Bypasses base access.source before.graph after.graph := by
  refine (Pass.unspoilt_findPin lowering.toRegular furnished listed).bind ?_
  rintro self _ ⟨rfl, hasPin⟩
  exact Pass.unspoilt_link_value lowering furnished handle
    (PinType.referring_ne_exec _ _) hasPin (PinType.feeds_self _ _)

/-- The pins of a node that writes a value to a field. -/
def writePins (access : FieldAccess) (field : Field) (name : String) : List PinSpec :=
  PrimitivePins.execution ++
    [⟨.input, .object access.owner, PinName.self⟩, ⟨.input, field.pinType, name⟩]

theorem continuation_mem_writePins (access : FieldAccess) (field : Field) (name : String) :
    ⟨.output, .exec, PinName.continuation⟩ ∈ access.writePins field name := by
  simp [writePins, PrimitivePins.execution]

theorem value_mem_writePins (access : FieldAccess) (field : Field) (name : String) :
    ⟨.input, field.pinType, name⟩ ∈ access.writePins field name := by
  simp [writePins]

/-- Execution goes on from the node once it has come there. -/
theorem unspoilt_spliceExec {name : String} {exec : PinId}
    (lowering : Lowering base access.source before.graph)
    (furnished : Furnished base access.source earlier before.graph node
      (access.writePins field name))
    (gives : Gives base earlier .exec exec) (idle : Idle base before.graph exec)
    (exit : Exit base before.graph node PinName.continuation) :
    Unspoilt (spliceExec (some exec) node) before fun next after =>
      Advances base access.source before.graph after.graph ∧
        ∃ id, next = some id ∧ Idle base after.graph id := by
  have regular := lowering.toRegular
  have executes : (⟨.input, .exec, PinName.execute⟩ : PinSpec) ∈ access.writePins field name := by
    simp [writePins, PrimitivePins.execution]
  refine (Pass.unspoilt_findPin regular furnished executes).bind ?_
  rintro execute _ ⟨rfl, hasExecute⟩
  refine (Pass.unspoilt_findPin regular furnished
    (access.continuation_mem_writePins field name)).bind ?_
  rintro continuation first ⟨rfl, hasContinuation⟩
  obtain ⟨id, hasExit, exitIdle⟩ := exit
  obtain rfl := hasExit.eq_of_port regular hasContinuation.port
  have different : exec ≠ continuation := by
    rintro rfl
    obtain ⟨face, found, owner, _⟩ := hasContinuation
    exact furnished.not_owns gives ⟨face, found, owner⟩
  refine (Pass.unspoilt_transferLinks_of_idle lowering idle hasContinuation different).bind ?_
  intro _ second emptied
  have linked := Pass.unspoilt_link emptied.lowering (furnished.mono emptied.extended) gives
    (hasExecute.mono emptied.extended) (PinType.feeds_self _ _)
  refine linked.bind fun _ third ⟨advances, others⟩ => ?_
  exact ⟨emptied.toAdvances.trans advances, continuation, rfl,
    others different.symm (emptied.idle exitIdle)⟩

/-- What every write ends with. -/
theorem unspoilt_sequence {name : String} {exec : PinId}
    (lowering : Lowering base access.source before.graph)
    (furnished : Furnished base access.source earlier before.graph node
      (access.writePins field name))
    (handle : Gives base earlier (.object access.owner) access.handle)
    (given : access.exec = some exec) (gives : Gives base earlier .exec exec)
    (idle : Idle base before.graph exec)
    (exit : Exit base before.graph node PinName.continuation) :
    Unspoilt (do
      access.attachHandle node
      spliceExec access.exec node) before fun next after =>
        Advances base access.source before.graph after.graph ∧
          ∃ id, next = some id ∧ Idle base after.graph id := by
  have listed : (⟨.input, .object access.owner, PinName.self⟩ : PinSpec) ∈
      access.writePins field name := by
    simp [writePins]
  refine (unspoilt_attachHandle lowering furnished listed handle).bind fun _ middle attached => ?_
  rw [given]
  refine (unspoilt_spliceExec attached.lowering (furnished.mono attached.extended) gives
    (attached.idle idle) (exit.mono attached)).mono fun next after ⟨advances, onward⟩ => ?_
  exact ⟨attached.toAdvances.trans advances, onward⟩

/-- A write by one node, of whatever kind. -/
theorem unspoilt_writeBy {kind : NodeKind} {name : String} {exec : PinId}
    (ready : access.Ready field base before.graph) (direction : field.direction = .input)
    (given : access.exec = some exec) (idle : Idle base before.graph exec)
    (primitive : kind.settings? = none) :
    Unspoilt (do
      let node ← Pass.spawn kind (access.writePins field name) access.source
      let value ← Pass.findPin node name .input
      access.routeValue value
      access.attachHandle node
      spliceExec access.exec node) before fun next after =>
        Advances base access.source before.graph after.graph ∧
          ∃ id, next = some id ∧ Idle base after.graph id := by
  refine (Pass.unspoilt_spawn ready.lowering primitive).bind ?_
  rintro node first ⟨opened, furnished, _, exits⟩
  have exit := exits PinName.continuation (access.continuation_mem_writePins field name)
  have readied := ready.advance opened.toAdvances
  refine (Pass.unspoilt_findPin readied.lowering.toRegular furnished
    (access.value_mem_writePins field name)).bind ?_
  rintro value _ ⟨rfl, hasPin⟩
  refine (readied.unspoilt_routeValue furnished.added (direction.symm ▸ hasPin)).bind ?_
  intro _ second routed
  have bypasses := opened.trans routed
  refine (unspoilt_sequence routed.lowering (furnished.mono routed.extended) ready.handle given
    idle.1 (bypasses.idle idle) (exit.mono routed)).mono fun next after ⟨advances, onward⟩ => ?_
  exact ⟨bypasses.toAdvances.trans advances, onward⟩

theorem unspoilt_writeCopy {exec : PinId} (ready : access.Ready field base before.graph)
    (direction : field.direction = .input) (given : access.exec = some exec)
    (idle : Idle base before.graph exec) :
    Unspoilt (access.writeCopy field) before fun next after =>
      Advances base access.source before.graph after.graph ∧
        ∃ id, next = some id ∧ Idle base after.graph id := by
  refine (Pass.unspoilt_spawn ready.lowering rfl).bind ?_
  rintro copy first ⟨opened, furnished, _, _⟩
  have readied := ready.advance opened.toAdvances
  refine (Pass.unspoilt_findPin readied.lowering.toRegular furnished
    (PrimitivePins.item_mem_copy field.pinType)).bind ?_
  rintro item _ ⟨rfl, hasItem⟩
  refine (Pass.unspoilt_findPin readied.lowering.toRegular furnished
    (PrimitivePins.returned_mem_copy field.pinType)).bind ?_
  rintro copied first ⟨rfl, hasCopied⟩
  refine (readied.unspoilt_routeValue furnished.added (direction.symm ▸ hasItem)).bind ?_
  intro _ second routed
  have toSecond := opened.trans routed
  refine (Pass.unspoilt_spawn routed.lowering rfl).bind ?_
  rintro setter third ⟨widened, setterFurnished, _, exits⟩
  have exit := exits PinName.continuation (access.continuation_mem_writePins field field.name)
  refine (Pass.unspoilt_findPin widened.lowering.toRegular setterFurnished
    (access.value_mem_writePins field field.name)).bind ?_
  rintro value _ ⟨rfl, hasValue⟩
  have gives := (hasCopied.gives furnished.added).mono routed.extended
  refine (Pass.unspoilt_link_value widened.lowering setterFurnished gives ready.value hasValue
    (PinType.feeds_self _ _)).bind ?_
  intro _ fourth joined
  have toFourth := toSecond.trans (widened.trans joined)
  refine (@unspoilt_sequence base second.graph access field setter fourth field.name exec
    joined.lowering (setterFurnished.mono joined.extended) (ready.handle.mono toSecond.extended)
    given (idle.1.mono toSecond.extended) (toFourth.idle idle) (exit.mono joined)).mono ?_
  rintro next after ⟨advances, onward⟩
  exact ⟨toFourth.toAdvances.trans advances, onward⟩

/-- A write comes to pass after the writes before it. -/
theorem unspoilt_expand_input {exec : PinId} (ready : access.Ready field base before.graph)
    (direction : field.direction = .input) (given : access.exec = some exec)
    (idle : Idle base before.graph exec) :
    Unspoilt (access.expand field) before fun next after =>
      Advances base access.source before.graph after.graph ∧
        ∃ id, next = some id ∧ Idle base after.graph id := by
  unfold expand
  rw [direction]
  cases field.kind with
  | scalar => exact unspoilt_writeBy ready direction given idle rfl
  | struct => exact unspoilt_writeBy ready direction given idle rfl
  | array => exact unspoilt_writeCopy ready direction given idle
  | delegate => exact unspoilt_writeBy ready direction given idle rfl

theorem unspoilt_readValue (ready : access.Ready field base before.graph)
    (direction : field.direction = .output) :
    Unspoilt (access.readValue field) before fun _ after =>
      Advances base access.source before.graph after.graph := by
  refine (Pass.unspoilt_spawn ready.lowering rfl).bind ?_
  rintro getter first ⟨opened, furnished, _, _⟩
  refine (Pass.unspoilt_findPin opened.lowering.toRegular furnished
    (PrimitivePins.value_mem_getField access.owner field)).bind ?_
  rintro value _ ⟨rfl, hasValue⟩
  refine (unspoilt_attachHandle opened.lowering furnished
    (PrimitivePins.self_mem_getField access.owner field) ready.handle).bind ?_
  intro _ second attached
  have advances := (opened.trans attached).toAdvances
  refine ((ready.advance advances).unspoilt_transferPin furnished.added
    (direction.symm ▸ hasValue.mono attached.extended)).bind fun _ third transferred => ?_
  exact unspoilt_pure (advances.trans transferred.toAdvances)

theorem unspoilt_readCopy (ready : access.Ready field base before.graph)
    (direction : field.direction = .output) :
    Unspoilt (access.readCopy field) before fun _ after =>
      Advances base access.source before.graph after.graph := by
  refine (Pass.unspoilt_spawn ready.lowering rfl).bind ?_
  rintro getter first ⟨opened, furnished, _, _⟩
  refine (Pass.unspoilt_findPin opened.lowering.toRegular furnished
    (PrimitivePins.value_mem_getField access.owner field)).bind ?_
  rintro value _ ⟨rfl, hasValue⟩
  refine (unspoilt_attachHandle opened.lowering furnished
    (PrimitivePins.self_mem_getField access.owner field) ready.handle).bind ?_
  intro _ second attached
  refine (Pass.unspoilt_spawn attached.lowering rfl).bind ?_
  rintro copy third ⟨widened, copyFurnished, _, _⟩
  refine (Pass.unspoilt_findPin widened.lowering.toRegular copyFurnished
    (PrimitivePins.item_mem_copy field.pinType)).bind ?_
  rintro item _ ⟨rfl, hasItem⟩
  refine (Pass.unspoilt_findPin widened.lowering.toRegular copyFurnished
    (PrimitivePins.returned_mem_copy field.pinType)).bind ?_
  rintro copied _ ⟨rfl, hasCopied⟩
  have gives := (hasValue.gives furnished.added).mono attached.extended
  refine (Pass.unspoilt_link_value widened.lowering copyFurnished gives ready.value hasItem
    (PinType.feeds_self _ _)).bind ?_
  intro _ fourth joined
  have advances := (opened.trans (attached.trans (widened.trans joined))).toAdvances
  refine ((ready.advance advances).unspoilt_transferPin copyFurnished.added
    (direction.symm ▸ hasCopied.mono joined.extended)).bind fun _ fifth transferred => ?_
  exact unspoilt_pure (advances.trans transferred.toAdvances)

theorem unspoilt_expand_output (ready : access.Ready field base before.graph)
    (direction : field.direction = .output) :
    Unspoilt (access.expand field) before fun _ after =>
      Advances base access.source before.graph after.graph := by
  unfold expand
  rw [direction]
  cases field.kind with
  | scalar => exact unspoilt_readValue ready direction
  | struct => exact unspoilt_readCopy ready direction
  | array => exact unspoilt_readCopy ready direction
  | delegate => exact (sturdy_throw rfl).unspoilt fun yielded => (not_yields_throw yielded).elim

end FieldAccess

end RigLowering
