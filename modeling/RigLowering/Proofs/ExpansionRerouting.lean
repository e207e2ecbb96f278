import RigLowering.Proofs.EvaluatorRerouting

namespace RigLowering

namespace Graph

/-- On the way the pins of the evaluator keep their faces, and those whose links have not been
moved stay linked or unlinked. -/
theorem Rerouting.pin?_eq_some_iff {base graph : Graph} {source : NodeId} {moved : PinId → PinId}
    (rerouting : Rerouting base source moved graph) (began : source.index < base.nodes.size)
    {id : PinId} {claim : Pin → Prop}
    (agrees : ∀ {pin old : Pin}, base.pin? id = some old → old.owner = source →
      pin.face = old.face → (moved id = id → pin.isLinked = old.isLinked) →
        (claim pin ↔ claim old)) :
    (∃ pin, graph.pin? id = some pin ∧ pin.owner = source ∧ claim pin) ↔
      ∃ pin, base.pin? id = some pin ∧ pin.owner = source ∧ claim pin := by
  have linked {pin old : Pin} (live : graph.pin? id = some pin) (oldLive : base.pin? id = some old)
      (stays : moved id = id) : pin.isLinked = old.isLinked := by
    have links {far : PinId} := @rerouting.links id far (lt_size_of_face? (face?_of_pin? oldLive))
    rw [links_of_pin? live, links_of_pin? oldLive] at links
    unfold Pin.isLinked
    cases oldLinks : old.links with
    | nil =>
        have empty : pin.links = [] := by
          apply List.eq_nil_iff_forall_not_mem.mpr
          intro far member
          obtain ⟨_, other, otherMember, _⟩ := links.mp member
          rw [oldLinks] at otherMember
          cases otherMember
        rw [empty]
    | cons head rest =>
        have member := links.mpr ⟨stays, head, by simp [oldLinks], rfl⟩
        cases equation : pin.links with
        | nil =>
            rw [equation] at member
            cases member
        | cons _ _ => rfl
  constructor
  · rintro ⟨pin, live, owner, holds⟩
    obtain ⟨face, found, oldOwner⟩ :=
      (rerouting.owns_iff began).mp ⟨pin.face, face?_of_pin? live, owner⟩
    have same := rerouting.extended.face?_eq found
    rw [face?_of_pin? live] at same
    cases same
    obtain ⟨before, oldLive, faces, _⟩ := exists_pin?_of_face? found
    exact ⟨before, oldLive, (congrArg PinFace.owner faces).trans owner,
      (agrees oldLive ((congrArg PinFace.owner faces).trans owner) faces.symm
        (linked live oldLive)).mp holds⟩
  · rintro ⟨before, oldLive, owner, holds⟩
    have faces := rerouting.extended.face?_eq (face?_of_pin? oldLive)
    obtain ⟨pin, live, same, _⟩ := exists_pin?_of_face? faces
    have pinOwner : pin.owner = source := (congrArg PinFace.owner same).trans owner
    exact ⟨pin, live, pinOwner, (agrees oldLive owner same (linked live oldLive)).mpr holds⟩

end Graph

namespace Target

open RigLowering.Graph

variable {base : Graph} {env : Environment} {target : Target} {moved : PinId → PinId}

theorem hasField_congr {pin old : Pin} {field : Field} (same : pin.face = old.face)
    (linked : pin.isLinked = old.isLinked) :
    target.HasField env pin field ↔ target.HasField env old field := by
  have name : pin.name = old.name := congrArg PinFace.name same
  have direction : pin.direction = old.direction := congrArg PinFace.direction same
  rw [hasField_iff, hasField_iff, name, direction, linked]

/-- The parameters of an expansion can be told from the graph where it began. -/
theorem mem_parametersAmong_iff {graph : Graph} {direction : PinDirection}
    (rerouting : Rerouting base target.node moved graph) {data : Node}
    (found : graph.node? target.node = some data) (began : target.node.index < base.nodes.size)
    (stays : ∀ {id pin}, base.pin? id = some pin → pin.owner = target.node →
      pin.direction = direction → ¬ (pin.direction = .output ∧ pin.name = PinName.rig) →
        moved id = id) {parameter : PinId × Field} :
    parameter ∈ target.parametersAmong env direction graph data.pins ↔
      ∃ pin, base.pin? parameter.1 = some pin ∧ pin.owner = target.node ∧
        pin.direction = direction ∧ target.HasField env pin parameter.2 := by
  rw [mem_parameters_iff rerouting.regular.toSound found]
  apply rerouting.pin?_eq_some_iff began
  intro pin old live owner same linked
  have name : pin.name = old.name := congrArg PinFace.name same
  have directions : pin.direction = old.direction := congrArg PinFace.direction same
  rw [directions]
  apply and_congr_right
  intro toward
  by_cases rig : old.direction = .output ∧ old.name = PinName.rig
  · have oldNot : ¬ target.HasField env old parameter.2 := fun hasField => hasField.not_rig rig
    have pinNot : ¬ target.HasField env pin parameter.2 := fun hasField =>
      hasField.not_rig ⟨directions.trans rig.1, name.trans rig.2⟩
    exact iff_of_false pinNot oldNot
  · exact hasField_congr same (linked (stays live owner toward rig))

theorem waiting_parametersAmong {graph : Graph} {direction : PinDirection}
    (rerouting : Rerouting base target.node moved graph) {data : Node}
    (found : graph.node? target.node = some data) (began : target.node.index < base.nodes.size)
    (stays : ∀ {id pin}, base.pin? id = some pin → pin.owner = target.node →
      pin.direction = direction → ¬ (pin.direction = .output ∧ pin.name = PinName.rig) →
        moved id = id) :
    target.Waiting base moved direction
      (target.parametersAmong env direction graph data.pins) where
  nodup := nodup_parameters rerouting.regular found
  stays := by
    intro parameter member
    obtain ⟨pin, live, owner, toward, hasField⟩ :=
      (mem_parametersAmong_iff rerouting found began stays).mp member
    exact stays live owner toward hasField.not_rig
  owned := by
    intro parameter member
    obtain ⟨pin, live, owner, toward, _⟩ :=
      (mem_parametersAmong_iff rerouting found began stays).mp member
    exact ⟨pin.face, face?_of_pin? live, owner, toward⟩
  fields := by
    intro parameter member
    obtain ⟨pin, _, _, toward, hasField⟩ :=
      (mem_parametersAmong_iff rerouting found began stays).mp member
    exact hasField.direction_eq.trans toward

/-- The pin is the sub-rig output, or there is a field for it. -/
def Counts (env : Environment) (target : Target) (pin : Pin) : Prop :=
  (pin.direction = .output ∧ pin.name = PinName.rig) ∨ ∃ field, target.HasField env pin field

/-- The pin that the links of `pin` have come to. -/
inductive Replaces (env : Environment) (target : Target) (before after : Graph) (pin : Pin)
    (dest : PinId) : Prop
  | rig (direction : pin.direction = .output) (name : pin.name = PinName.rig)
      (port : CastPort before after target.node env.runtime.allocate.name target.rigType dest)
  | field (field : Field) (hasField : target.HasField env pin field)
      (port : ValuePort before after target.node target.rigType field dest)

theorem Replaces.added {before after : Graph} {pin : Pin} {dest : PinId}
    (replaces : target.Replaces env before after pin dest) : Added before after dest := by
  cases replaces with
  | rig _ _ port => exact port.added
  | field _ _ port => exact port.added

theorem Replaces.direction_eq {before after : Graph} {pin : Pin} {dest : PinId}
    (replaces : target.Replaces env before after pin dest) :
    ∃ face, after.face? dest = some face ∧ face.direction = pin.direction := by
  cases replaces with
  | rig direction _ castPort =>
      obtain ⟨_, _, _, _, _, _, _, _, _, face, found, _, output, _⟩ := castPort
      exact ⟨face, found, output.trans direction.symm⟩
  | field field hasField valuePort =>
      obtain ⟨face, found, direction⟩ := valuePort.direction_eq
      exact ⟨face, found, direction.trans hasField.direction_eq⟩

/-- The inputs have been dealt with. -/
structure Gathers (env : Environment) (target : Target) (base : Graph) (moved : PinId → PinId)
    (graph : Graph) : Prop where
  rerouting : Rerouting base target.node moved graph
  stay : OutputsStay base moved
  inputs : ∀ {id pin field}, base.pin? id = some pin → pin.owner = target.node →
    pin.direction = .input → target.HasField env pin field →
      ValuePort base graph target.node target.rigType field (moved id)
  others : ∀ {id}, moved id ≠ id → ∃ pin, base.pin? id = some pin ∧ pin.owner = target.node ∧
    ∃ field, target.HasField env pin field

theorem Gathers.undisturbed {graph later : Graph} (gathers : target.Gathers env base moved graph)
    (undisturbed : Undisturbed base target.node graph later) :
    target.Gathers env base moved later where
  rerouting := gathers.rerouting.undisturbed undisturbed
  stay := gathers.stay
  inputs := fun live owner input hasField =>
    (gathers.inputs live owner input hasField).mono undisturbed.extended undisturbed.retains
  others := gathers.others

private theorem gathers_of_settles {first last : Graph} {later : PinId → PinId}
    {parameters : List (PinId × Field)}
    (listed : ∀ {parameter : PinId × Field}, parameter ∈ parameters ↔
      ∃ pin, base.pin? parameter.1 = some pin ∧ pin.owner = target.node ∧
        pin.direction = .input ∧ target.HasField env pin parameter.2)
    (settles : target.Settles base parameters id later first last)
    (stay : OutputsStay base later) : target.Gathers env base later last where
  rerouting := settles.rerouting
  stay := stay
  inputs := by
    intro id pin field live owner input hasField
    exact settles.ports (id, field) (listed.mpr ⟨pin, live, owner, input, hasField⟩)
  others := by
    intro id different
    apply Classical.byContradiction
    intro unmatched
    apply different
    apply settles.others
    rintro parameter member rfl
    obtain ⟨pin, live, owner, _, hasField⟩ := listed.mp member
    exact unmatched ⟨pin, live, owner, _, hasField⟩

theorem yields_expandInputs {before after : PassState} {gathered : Option GatheredInputs}
    (regular : before.graph.Regular)
    (yielded : Yields (target.expandInputs env) before gathered after) :
    ∃ moved, target.Gathers env before.graph moved after.graph ∧
      ∀ inputs, gathered = some inputs →
        CastPort before.graph after.graph target.node env.runtime.allocate.name target.rigType
          inputs.subRig.pin ∧ Added before.graph after.graph inputs.delegate := by
  have start := @Rerouting.start _ target.node regular
  obtain ⟨parameters, first, reading, afterRead⟩ := yields_bind_iff.mp yielded
  obtain ⟨sameFirst, data, found, rfl⟩ := yields_parameters reading
  have began := lt_size_of_node? found
  have listed {parameter : PinId × Field} :=
    @mem_parametersAmong_iff _ env target _ _ .input start _ found began (fun _ _ _ _ => rfl)
      parameter
  have waiting : target.Waiting before.graph id .input _ :=
    @waiting_parametersAmong _ env _ _ _ .input start _ found began fun _ _ _ _ => rfl
  generalize target.parametersAmong env .input before.graph data.pins = parameters at *
  split at afterRead
  · next empty =>
      obtain ⟨rfl, rfl⟩ := yields_pure_iff.mp afterRead
      obtain rfl := List.isEmpty_iff.mp empty
      rw [sameFirst]
      exact ⟨id, gathers_of_settles listed (.nil start) OutputsStay.start,
        fun _ given => by cases given⟩
  · obtain ⟨subRig, second, allocating, afterAllocate⟩ := yields_bind_iff.mp afterRead
    rw [← sameFirst] at start waiting listed ⊢
    obtain ⟨opened, handlePort⟩ := yields_allocate start allocating
    obtain ⟨event, third, spawning, afterEvent⟩ := yields_bind_iff.mp afterAllocate
    obtain ⟨widened, functionName, eventSpawned⟩ :=
      Pass.yields_spawnEvent opened.regular opened.extended spawning
    have toThird := opened.trans widened
    obtain ⟨exec, fourth, foundExec, afterExec⟩ := yields_bind_iff.mp afterEvent
    obtain ⟨sameFourth, execPort⟩ := Pass.yields_findPin toThird.regular foundExec
    rw [← sameFourth] at toThird widened eventSpawned execPort
    obtain ⟨_, fifth, writing, afterWrite⟩ := yields_bind_iff.mp afterExec
    obtain ⟨_, folded⟩ := yields_discard_iff.mp writing
    have handleWidened := handlePort.mono widened.extended widened.retains
    obtain ⟨later, settles, stay⟩ := yields_foldlM_expand waiting (start.undisturbed toThird)
      handleWidened.added OutputsStay.start
      (fun id same => by cases same; exact ⟨_, event, _, eventSpawned, rfl, execPort⟩) folded
    obtain ⟨delegate, sixth, foundDelegate, returned⟩ := yields_bind_iff.mp afterWrite
    obtain ⟨sameSixth, delegatePort⟩ := Pass.yields_findPin settles.rerouting.regular foundDelegate
    obtain ⟨rfl, rfl⟩ := yields_pure_iff.mp returned
    have eventWritten := eventSpawned.mono rfl settles.grows.extended
    rw [← sameSixth] at settles eventWritten delegatePort
    refine ⟨later, gathers_of_settles listed settles stay, ?_⟩
    intro inputs given
    cases given
    exact ⟨handleWidened.mono settles.grows.extended settles.grows.retains,
      eventWritten.port_added delegatePort⟩

/-- The links of every pin that counts have been moved, and no other links. -/
structure Moves (env : Environment) (target : Target) (base : Graph) (moved : PinId → PinId)
    (graph : Graph) : Prop where
  rerouting : Rerouting base target.node moved graph
  replaces : ∀ {id pin}, base.pin? id = some pin → pin.owner = target.node →
    target.Counts env pin → target.Replaces env base graph pin (moved id)
  others : ∀ {id}, moved id ≠ id → ∃ pin, base.pin? id = some pin ∧ pin.owner = target.node ∧
    target.Counts env pin

section ReadFrom

variable {rig handle : PinId}

private theorem base_port {graph : Graph} {direction : PinDirection}
    {name : String} {id : PinId} (rerouting : Rerouting base target.node moved graph)
    (began : target.node.index < base.nodes.size)
    (port : graph.Port target.node direction name id) :
    base.Port target.node direction name id := by
  obtain ⟨face, found, owner, directed, named⟩ := port
  obtain ⟨old, oldFound, _⟩ := (rerouting.owns_iff began).mp ⟨face, found, owner⟩
  have same := rerouting.extended.face?_eq oldFound
  rw [found] at same
  cases same
  exact ⟨face, oldFound, owner, directed, named⟩

private theorem port_unique {graph : Graph} {direction : PinDirection} {name : String}
    {id other : PinId} (rerouting : Rerouting base target.node moved graph)
    (port : base.Port target.node direction name id)
    (otherPort : base.Port target.node direction name other) : id = other := by
  obtain ⟨face, found, owner, directed, named⟩ := port
  obtain ⟨otherFace, otherFound, otherOwner, otherDirected, otherNamed⟩ := otherPort
  exact rerouting.regular.namesUnique (rerouting.extended.face?_eq found)
    (rerouting.extended.face?_eq otherFound) (owner.trans otherOwner.symm)
    (named.trans otherNamed.symm) (directed.trans otherDirected.symm)

/-- The outputs other than the sub-rig are where they were. -/
private theorem redirect_stays {graph : Graph} (gathers : target.Gathers env base moved graph)
    (rigPort : base.Port target.node .output PinName.rig rig) {id : PinId} {pin : Pin}
    (live : base.pin? id = some pin) (output : pin.direction = .output)
    (notRig : ¬ (pin.direction = .output ∧ pin.name = PinName.rig)) :
    redirect moved rig handle id = id := by
  have different : id ≠ rig := by
    rintro rfl
    obtain ⟨face, found, _, direction, name⟩ := rigPort
    rw [face?_of_pin? live] at found
    cases found
    exact notRig ⟨direction, name⟩
  rw [redirect, if_neg different]
  exact gathers.stay (face?_of_pin? live) output

private theorem moves_of_settles {first second last : Graph} {later : PinId → PinId}
    {parameters : List (PinId × Field)} (gathers : target.Gathers env base moved first)
    (rigPort : base.Port target.node .output PinName.rig rig)
    (castPort : CastPort base last target.node env.runtime.allocate.name target.rigType handle)
    (grows : Grows base target.node first last)
    (listed : ∀ {parameter : PinId × Field}, parameter ∈ parameters ↔
      ∃ pin, base.pin? parameter.1 = some pin ∧ pin.owner = target.node ∧
        pin.direction = .output ∧ target.HasField env pin parameter.2)
    (settles : target.Settles base parameters (redirect moved rig handle) later second last) :
    target.Moves env base later last := by
  have unlisted {id : PinId} {pin : Pin} (live : base.pin? id = some pin)
      (notField : ∀ field, pin.direction = .output → ¬ target.HasField env pin field) :
      later id = redirect moved rig handle id := by
    apply settles.others
    rintro parameter member rfl
    obtain ⟨other, otherLive, _, output, hasField⟩ := listed.mp member
    rw [live] at otherLive
    cases otherLive
    exact notField _ output hasField
  refine ⟨settles.rerouting, ?_, ?_⟩
  · rintro id pin live owner (⟨direction, name⟩ | ⟨field, hasField⟩)
    · have same : id = rig :=
        port_unique gathers.rerouting ⟨pin.face, face?_of_pin? live, owner, direction, name⟩ rigPort
      rw [unlisted live fun _ _ hasField => hasField.not_rig ⟨direction, name⟩, redirect,
        if_pos same]
      exact .rig direction name castPort
    · refine .field field hasField ?_
      cases direction : pin.direction with
      | output =>
          exact settles.ports (id, field) (listed.mpr ⟨pin, live, owner, direction, hasField⟩)
      | input =>
          have notOutput : pin.direction ≠ .output := by simp [direction]
          have different : id ≠ rig := by
            rintro rfl
            obtain ⟨face, found, _, output, _⟩ := rigPort
            rw [face?_of_pin? live] at found
            cases found
            exact notOutput output
          rw [unlisted live fun _ output => (notOutput output).elim, redirect, if_neg different]
          exact (gathers.inputs live owner direction hasField).mono grows.extended grows.retains
  · intro id different
    by_cases same : id = rig
    · subst same
      obtain ⟨face, found, owner, direction, name⟩ := rigPort
      obtain ⟨pin, live, rfl, _⟩ := exists_pin?_of_face? found
      exact ⟨pin, live, owner, .inl ⟨direction, name⟩⟩
    · by_cases movedBefore : moved id = id
      · apply Classical.byContradiction
        intro unmatched
        apply different
        rw [settles.others, redirect, if_neg same, movedBefore]
        rintro parameter member rfl
        obtain ⟨pin, live, owner, _, hasField⟩ := listed.mp member
        exact unmatched ⟨pin, live, owner, .inr ⟨_, hasField⟩⟩
      · obtain ⟨pin, live, owner, hasField⟩ := gathers.others movedBefore
        exact ⟨pin, live, owner, .inr hasField⟩

theorem yields_readFrom {before after : PassState} {subRig : SubRig} {delegate : Option PinId}
    {index : UInt32} (gathers : target.Gathers env base moved before.graph)
    (began : target.node.index < base.nodes.size)
    (castPort : CastPort base before.graph target.node env.runtime.allocate.name target.rigType
      subRig.pin)
    (delegateAdded : ∀ id, delegate = some id → Added base before.graph id)
    (yielded : Yields (do
      let rig ← Pass.findPin target.node PinName.rig .output
      Pass.transferPin rig subRig.pin
      let result ← target.evaluate env subRig delegate
      target.readOutputs result (← target.parameters env .output)
      return subRig.index) before index after) :
    ∃ later, target.Moves env base later after.graph := by
  obtain ⟨rig, first, foundRig, afterRig⟩ := yields_bind_iff.mp yielded
  obtain ⟨sameFirst, port⟩ := Pass.yields_findPin gathers.rerouting.regular foundRig
  have rigPort := base_port gathers.rerouting began port
  obtain ⟨rigFace, rigFound, rigOwner, rigDirection, _⟩ := base_port gathers.rerouting began port
  rw [← sameFirst] at gathers castPort delegateAdded
  obtain ⟨_, second, transferring, afterTransfer⟩ := yields_bind_iff.mp afterRig
  obtain ⟨rigMoved, rigGrows⟩ := Pass.yields_transferPin_of_rerouting gathers.rerouting rigFound
    rigOwner (gathers.stay rigFound rigDirection) castPort.added transferring
  have handlePort := castPort.mono rigGrows.extended rigGrows.retains
  obtain ⟨result, third, evaluating, afterEvaluate⟩ := yields_bind_iff.mp afterTransfer
  obtain ⟨evaluated, resultAdded⟩ := yields_evaluate rigMoved handlePort.added
    (fun id given => (delegateAdded id given).mono rigGrows.extended) evaluating
  have rerouting := rigMoved.undisturbed evaluated
  obtain ⟨parameters, fourth, reading, afterRead⟩ := yields_bind_iff.mp afterEvaluate
  obtain ⟨sameFourth, data, found, rfl⟩ := yields_parameters reading
  have stays {id : PinId} {pin : Pin} (live : base.pin? id = some pin)
      (_ : pin.owner = target.node) :=
    @redirect_stays _ _ _ _ _ subRig.pin _ gathers rigPort _ _ live
  have listed {parameter : PinId × Field} :=
    @mem_parametersAmong_iff _ env target _ _ .output rerouting _ found began stays parameter
  have waiting : target.Waiting base _ .output _ :=
    @waiting_parametersAmong _ env _ _ _ .output rerouting _ found began stays
  generalize target.parametersAmong env .output third.graph data.pins = parameters at *
  rw [← sameFourth] at evaluated rerouting resultAdded
  obtain ⟨_, fifth, readingOut, returned⟩ := yields_bind_iff.mp afterRead
  obtain ⟨_, rfl⟩ := yields_pure_iff.mp returned
  obtain ⟨later, settles⟩ := yields_readOutputs waiting rerouting resultAdded readingOut
  have grows := (rigGrows.trans evaluated.toGrows).trans settles.grows
  exact ⟨later, moves_of_settles gathers rigPort (castPort.mono grows.extended grows.retains) grows
    listed settles⟩

end ReadFrom

/-- Each pin of `before` whose links are not gone lands where they have come to.  Pins of other
nodes stay; a pin of the evaluator that counts is replaced, and any other is without links. -/
structure Reroutes (env : Environment) (target : Target) (before after : Graph)
    (lands : PinId → Option PinId) : Prop where
  grown : Grows before target.node before after
  stays : ∀ {id}, ¬ before.Owns target.node id → lands id = some id
  counted : ∀ {id pin}, before.pin? id = some pin → pin.owner = target.node →
    ((lands id).isSome ↔ target.Counts env pin)
  replaces : ∀ {id pin dest}, before.pin? id = some pin → pin.owner = target.node →
    lands id = some dest → target.Replaces env before after pin dest
  links : ∀ {id far}, id.index < before.pins.size →
    (far ∈ after.links id ↔
      ¬ before.Owns target.node id ∧ ∃ old ∈ before.links id, lands old = some far)

/-- A pin of the evaluator that has not been replaced lands nowhere. -/
def landing (target : Target) (base : Graph) (moved : PinId → PinId) (id : PinId) :
    Option PinId :=
  if base.Owns target.node id ∧ moved id = id then none else some (moved id)

theorem landing_eq_some_iff {id dest : PinId} :
    target.landing base moved id = some dest ↔
      moved id = dest ∧ ¬ (base.Owns target.node id ∧ moved id = id) := by
  unfold landing
  split
  · next gone => simp [gone]
  · next stays => simp [stays]

theorem Replaces.mono {graph later : Graph} {pin : Pin} {dest : PinId}
    (replaces : target.Replaces env base graph pin dest) (extension : graph.Extends later)
    (retains : ∀ {id far}, Feeds base graph target.node id → Added base graph far →
      far ∈ graph.links id → far ∈ later.links id) :
    target.Replaces env base later pin dest := by
  cases replaces with
  | rig direction name port => exact .rig direction name (port.mono extension retains)
  | field field hasField port => exact .field field hasField (port.mono extension retains)

end Target

namespace Graph

/-- Taking away the links of an evaluator takes nothing from what it has spawned. -/
theorem Grows.of_unlinked {base graph later : Graph} {source : NodeId}
    (began : source.index < base.nodes.size) (frame : graph.SameFrame later)
    (regular : later.Regular)
    (links : ∀ {id far}, far ∈ later.links id ↔
      far ∈ graph.links id ∧ ¬ graph.Owns source id ∧ ¬ graph.Owns source far) :
    Grows base source graph later := by
  refine .of_frame frame regular ?_
  intro id far feeds added member
  exact links.mpr ⟨member, feeds.added.not_owns began, added.not_owns began⟩

theorem Grows.of_settings {base graph : Graph} (node : NodeId)
    (change : EvaluatorSettings → EvaluatorSettings)
    (later : (graph.changeNode node (·.mapSettings change)).Regular) :
    Grows base node graph (graph.changeNode node (·.mapSettings change)) where
  extended := Edit.changeSettings_extends node change graph
  regular := later
  keeps := by
    intro id _ other
    rw [node?_changeNode, if_neg (Ne.symm other)]
  node := by
    intro id data found new
    have bound := lt_size_of_node? found
    rw [show (graph.changeNode node (·.mapSettings change)).nodes.size = graph.nodes.size from
      Array.size_modify ..] at bound
    exact (Nat.not_lt_of_le new bound).elim
  pin := fun found new => (Nat.not_lt_of_le new (lt_size_of_face? found)).elim
  retains := fun _ _ member => member

end Graph

namespace Target

open RigLowering.Graph

variable {env : Environment} {target : Target} {before after : PassState}

theorem Moves.reroutes {base graph later : Graph} {moved : PinId → PinId}
    (moves : target.Moves env base moved graph) (began : target.node.index < base.nodes.size)
    (grows : Grows base target.node graph later)
    (links : ∀ {id far}, far ∈ later.links id ↔
      far ∈ graph.links id ∧ ¬ graph.Owns target.node id ∧ ¬ graph.Owns target.node far) :
    target.Reroutes env base later (target.landing base moved) where
  grown := moves.rerouting.grown.trans grows
  stays := by
    intro id foreign
    exact landing_eq_some_iff.mpr
      ⟨moves.rerouting.moved_foreign foreign, fun both => foreign both.1⟩
  counted := by
    intro id pin live owner
    rw [Option.isSome_iff_exists]
    constructor
    · rintro ⟨dest, lands⟩
      obtain ⟨rfl, away⟩ := landing_eq_some_iff.mp lands
      have different : moved id ≠ id := fun same => away ⟨⟨_, face?_of_pin? live, owner⟩, same⟩
      obtain ⟨other, otherLive, _, counts⟩ := moves.others different
      rw [live] at otherLive
      cases otherLive
      exact counts
    · intro counts
      have new := (moves.replaces live owner counts).added.pinCount_le moves.rerouting.sound
        moves.rerouting.extended
      refine ⟨moved id, landing_eq_some_iff.mpr ⟨rfl, fun both => ?_⟩⟩
      rw [both.2] at new
      exact Nat.not_lt_of_le new (lt_size_of_face? (face?_of_pin? live))
  replaces := by
    intro id pin dest live owner lands
    obtain ⟨rfl, away⟩ := landing_eq_some_iff.mp lands
    have different : moved id ≠ id := fun same => away ⟨⟨_, face?_of_pin? live, owner⟩, same⟩
    obtain ⟨other, otherLive, _, counts⟩ := moves.others different
    rw [live] at otherLive
    cases otherLive
    exact (moves.replaces live owner counts).mono grows.extended grows.retains
  links := by
    intro id far old
    have rerouting := moves.rerouting
    rw [links, rerouting.links old, rerouting.owns_iff began, rerouting.owns_iff began]
    simp only [landing_eq_some_iff]
    constructor
    · rintro ⟨⟨stays, origin, member, rfl⟩, foreign, farForeign⟩
      refine ⟨foreign, origin, member, rfl, ?_⟩
      rintro ⟨owned, same⟩
      exact farForeign (same.symm ▸ owned)
    · rintro ⟨foreign, origin, member, rfl, away⟩
      refine ⟨⟨rerouting.moved_foreign foreign, origin, member, rfl⟩, foreign, ?_⟩
      rintro ⟨face, found, owner⟩
      by_cases same : moved origin = origin
      · rw [same] at found
        exact away ⟨⟨face, found, owner⟩, same⟩
      · have new := (rerouting.moved_added same).pinCount_le rerouting.sound rerouting.extended
        exact Nat.not_lt_of_le new (lt_size_of_face? found)

theorem yields_expand_outcome {outcome : Outcome}
    (yielded : Yields (target.expand env) before outcome after) :
    ∃ index event, outcome = .expanded index event := by
  obtain ⟨gathered, _, _, afterInputs⟩ := yields_bind_iff.mp yielded
  obtain ⟨index, _, _, afterOutputs⟩ := yields_bind_iff.mp afterInputs
  obtain ⟨_, _, _, afterUnlink⟩ := yields_bind_iff.mp afterOutputs
  obtain ⟨_, _, _, returned⟩ := yields_bind_iff.mp afterUnlink
  exact ⟨_, _, (yields_pure_iff.mp returned).1⟩

theorem yields_expand {outcome : Outcome} (regular : before.graph.Regular)
    (began : target.node.index < before.graph.nodes.size)
    (yielded : Yields (target.expand env) before outcome after) :
    ∃ lands, target.Reroutes env before.graph after.graph lands := by
  obtain ⟨gathered, first, gathering, afterInputs⟩ := yields_bind_iff.mp yielded
  obtain ⟨moved, gathers, gatheredPorts⟩ := yields_expandInputs regular gathering
  obtain ⟨index, second, readingOut, afterOutputs⟩ := yields_bind_iff.mp afterInputs
  obtain ⟨later, moves⟩ : ∃ later, target.Moves env before.graph later second.graph := by
    cases gathered with
    | none =>
        obtain ⟨subRig, middle, allocating, reading⟩ := yields_bind_iff.mp readingOut
        obtain ⟨opened, castPort⟩ := yields_allocate gathers.rerouting allocating
        exact yields_readFrom (gathers.undisturbed opened) began castPort
          (fun _ given => by cases given) reading
    | some inputs =>
        obtain ⟨castPort, added⟩ := gatheredPorts inputs rfl
        exact yields_readFrom gathers began castPort
          (fun _ given => by cases given; exact added) readingOut
  obtain ⟨_, third, unlinking, afterUnlink⟩ := yields_bind_iff.mp afterOutputs
  obtain ⟨_, fourth, marking, returned⟩ := yields_bind_iff.mp afterUnlink
  obtain ⟨_, rfl⟩ := yields_pure_iff.mp returned
  have unlinked := Pass.yields_edit unlinking
  have unlinkedRegular := (Edit.Composed.unlinkNode _).keeps_regular.holds_after unlinked
    moves.rerouting.regular
  obtain ⟨frame, links⟩ := Edit.yields_unlinkNode moves.rerouting.regular.toSound unlinked
  have marked := Pass.yields_edit marking
  have markedRegular :=
    (Edit.Composed.changeSettings _ _).keeps_regular.holds_after marked unlinkedRegular
  unfold Yields at marked
  rcases Edit.changeSettings_cases target.node EvaluatorSettings.markInert third.graph with
    ⟨_, failed⟩ | done
  · exact (nomatch failed.symm.trans marked)
  · have same : after.graph = third.graph.changeNode target.node
        (·.mapSettings EvaluatorSettings.markInert) :=
      congrArg Prod.snd (marked.symm.trans done)
    rw [same] at markedRegular ⊢
    have grows := (Grows.of_unlinked began frame unlinkedRegular links).trans
      (.of_settings target.node _ markedRegular)
    refine ⟨target.landing before.graph later, moves.reroutes began grows ?_⟩
    intro id far
    exact links

end Target

namespace Environment

open RigLowering.Graph

variable {env : Environment}

theorem target_congr {fullCompile : Bool} {graph other : Graph} {node : NodeId}
    (same : graph.node? node = other.node? node) :
    env.target fullCompile graph node = env.target fullCompile other node := by
  unfold Environment.target Graph.node
  rw [same]

/-- What is expanded is an evaluator of the graph that is bound to a registered class. -/
theorem target_eq_inr {fullCompile : Bool} {graph : Graph} {node : NodeId} {target : Target}
    (found : env.target fullCompile graph node = .ok (.inr target)) :
    fullCompile = true ∧ ∃ data settings rigType, graph.node? node = some data ∧
      data.kind.settings? = some settings ∧ settings.inert = false ∧
      env.registry.rigType? settings = some rigType ∧ target = ⟨node, rigType, settings⟩ := by
  cases fullCompile with
  | false => cases found
  | true =>
      obtain ⟨data, live, decided⟩ := bind_eq_ok_iff.mp found
      split at decided
      case h_1 => cases decided
      case h_2 settings read =>
          split at decided
          case isTrue => cases decided
          case isFalse active =>
              split at decided
              case h_1 => cases decided
              case h_2 rigType bound =>
                  cases decided
                  exact ⟨rfl, data, settings, rigType, node_eq_ok_iff.mp live, read,
                    Bool.eq_false_iff.mpr active, bound, rfl⟩

theorem yields_expandNode {node : NodeId} {outcome : Outcome} {before after : PassState}
    (yielded : Yields (env.expandNode node) before outcome after) :
    (∃ reason, outcome = .skipped reason ∧ after = before ∧
        env.target before.fullCompile before.graph node = .ok (.inl reason)) ∨
      ∃ target, env.target before.fullCompile before.graph node = .ok (.inr target) ∧
        Yields (target.expand env) before outcome after := by
  obtain ⟨state, _, reading, afterRead⟩ := yields_bind_iff.mp yielded
  cases reading
  obtain ⟨found, middle, queried, expanding⟩ := yields_bind_iff.mp afterRead
  have same : middle = before := (Prod.ext_iff.mp queried).2.symm
  obtain ⟨_, answered⟩ := Pass.yields_query queried
  subst same
  cases found with
  | inl reason =>
      obtain ⟨rfl, rfl⟩ := yields_pure_iff.mp expanding
      exact .inl ⟨reason, rfl, rfl, answered⟩
  | inr target => exact .inr ⟨target, answered, expanding⟩

/-- An evaluator that is expanded has its links rerouted. -/
theorem yields_expanded {node : NodeId} {index : UInt32} {event : Option NodeId}
    {before after : PassState} (regular : before.graph.Regular)
    (yielded : Yields (env.expandNode node) before (.expanded index event) after) :
    ∃ target lands, env.target before.fullCompile before.graph node = .ok (.inr target) ∧
      target.node = node ∧ target.Reroutes env before.graph after.graph lands := by
  rcases yields_expandNode yielded with ⟨_, skipped, _⟩ | ⟨target, found, expanding⟩
  · cases skipped
  · obtain ⟨_, data, _, _, live, _, _, _, rfl⟩ := target_eq_inr found
    obtain ⟨lands, reroutes⟩ := Target.yields_expand regular (lt_size_of_node? live) expanding
    exact ⟨_, lands, found, rfl, reroutes⟩

/-- Where an evaluator of a well-formed graph is expanded, each pin of another node is linked
afterwards to just those pins that its far ends from before have been replaced by.  A far end on
another node stays; the sub-rig output of the evaluator becomes the handle, each of its pins that
has a field the pin that the field's value goes through, and any other of its pins is gone. -/
theorem expandNode_reroutes_links (env : Environment) {node : NodeId} {index : UInt32}
    {event : Option NodeId} {before after : PassState} (wellFormed : before.graph.WellFormed)
    (expanded : (env.expandNode node).run before = (.ok (.expanded index event), after)) :
    ∃ (target : Target) (lands : PinId → Option PinId),
      env.target before.fullCompile before.graph node = .ok (.inr target) ∧
      (∀ pin ∈ before.graph.livePins, pin.owner ≠ node → lands pin.id = some pin.id) ∧
      (∀ pin ∈ before.graph.livePins, pin.owner = node → target.Counts env pin →
        ∃ dest, lands pin.id = some dest ∧
          target.Replaces env before.graph after.graph pin dest) ∧
      (∀ pin ∈ before.graph.livePins, pin.owner = node → ¬ target.Counts env pin →
        lands pin.id = none) ∧
      ∀ pin ∈ before.graph.livePins, ∃ later, after.graph.pin? pin.id = some later ∧
        ∀ far, far ∈ later.links ↔
          pin.owner ≠ node ∧ ∃ old ∈ pin.links, lands old = some far := by
  have regular := wellFormed_iff_regular.mp wellFormed
  obtain ⟨target, lands, found, rfl, reroutes⟩ := yields_expanded regular expanded
  refine ⟨target, lands, found, ?_, ?_, ?_, ?_⟩
  · intro pin member foreign
    exact reroutes.stays (mt (owns_iff_of_pin? (regular.pin?_of_mem_livePins member)).mp foreign)
  · intro pin member owner counts
    have live := regular.pin?_of_mem_livePins member
    obtain ⟨dest, landed⟩ :=
      Option.isSome_iff_exists.mp ((reroutes.counted live owner).mpr counts)
    exact ⟨dest, landed, reroutes.replaces live owner landed⟩
  · intro pin member owner notCounted
    have live := regular.pin?_of_mem_livePins member
    exact Option.not_isSome_iff_eq_none.mp (mt (reroutes.counted live owner).mp notCounted)
  · intro pin member
    have live := regular.pin?_of_mem_livePins member
    have faceFound := reroutes.grown.extended.face?_eq (face?_of_pin? live)
    obtain ⟨later, laterLive, _, links⟩ := exists_pin?_of_face? faceFound
    refine ⟨later, laterLive, ?_⟩
    intro far
    rw [links, reroutes.links (lt_size_of_face? (face?_of_pin? live)), owns_iff_of_pin? live,
      links_of_pin? live]

end Environment

namespace Pass

theorem exists_run_eq_ok {α : Type} {step : Pass α} {before : PassState} {value : α}
    (given : (step.run before).1.toOption = some value) :
    ∃ after, step.run before = (.ok value, after) := by
  cases ran : step.run before with
  | mk result after =>
      rw [ran] at given
      cases result with
      | error error => cases given
      | ok other =>
          cases given
          exact ⟨after, rfl⟩

end Pass

/-! Two legs, each of which feeds its foot to the height of the other, and a consumer of the
first. -/

namespace CrossedLegs

def registry : RigRegistry :=
  ⟨"Rig", NameMap.empty.insert "Leg"
    ⟨"Leg", "Rig", [⟨"height", .float, .input, .scalar⟩, ⟨"foot", .float, .output, .scalar⟩]⟩⟩

def leg : NodeKind :=
  .evaluator { EvaluatorSettings.unset with rigType := some "Leg" }

def graph : Graph where
  name := "CrossedLegs"
  parentClass := none
  nodes := #[
    ⟨⟨0⟩, leg, [⟨0⟩, ⟨1⟩, ⟨2⟩], none⟩,
    ⟨⟨1⟩, leg, [⟨3⟩, ⟨4⟩, ⟨5⟩], none⟩,
    ⟨⟨2⟩, .primitive "consumer", [⟨6⟩], none⟩]
  pins := #[
    some ⟨⟨0⟩, ⟨0⟩, "height", .input, .float, none, none, [⟨5⟩]⟩,
    some ⟨⟨1⟩, ⟨0⟩, "Rig", .output, .object "Leg", none, none, [⟨6⟩]⟩,
    some ⟨⟨2⟩, ⟨0⟩, "foot", .output, .float, none, none, [⟨3⟩]⟩,
    some ⟨⟨3⟩, ⟨1⟩, "height", .input, .float, none, none, [⟨2⟩]⟩,
    some ⟨⟨4⟩, ⟨1⟩, "Rig", .output, .object "Leg", none, none, []⟩,
    some ⟨⟨5⟩, ⟨1⟩, "foot", .output, .float, none, none, [⟨0⟩]⟩,
    some ⟨⟨6⟩, ⟨2⟩, "rig", .input, .anyObject, none, none, [⟨1⟩]⟩]
  hierarchy := .empty
  undo := none

def env : Environment := ⟨registry, .standard "Rig"⟩

def start : PassState := .start registry .standard graph

theorem wellFormed : graph.WellFormed where
  audited := rfl
  pinsOnce := by decide
  linksOnce := by decide
  namesOnce := by decide

theorem startWellFormed : start.graph.WellFormed where
  audited := rfl
  pinsOnce := by decide
  linksOnce := by decide
  namesOnce := by decide

theorem firstExpanded :
    ∃ after, (env.expandNode ⟨0⟩).run start = (.ok (.expanded 0 (some ⟨5⟩)), after) :=
  Pass.exists_run_eq_ok (by decide +kernel)

/-- The consumer of the first leg comes to be linked to the handle. -/
theorem expandNode_reroutes_consumer :
    ∃ (after : PassState) (target : Target) (lands : PinId → Option PinId) (later : Pin),
      (env.expandNode ⟨0⟩).run start = (.ok (.expanded 0 (some ⟨5⟩)), after) ∧
      env.target true start.graph ⟨0⟩ = .ok (.inr target) ∧
      after.graph.pin? ⟨6⟩ = some later ∧
      ∀ far, far ∈ later.links ↔ ∃ old ∈ [(⟨1⟩ : PinId)], lands old = some far := by
  obtain ⟨after, expanded⟩ := firstExpanded
  obtain ⟨target, lands, found, _, _, _, links⟩ :=
    env.expandNode_reroutes_links startWellFormed expanded
  obtain ⟨later, live, same⟩ :=
    links ⟨⟨6⟩, ⟨2⟩, "rig", .input, .anyObject, none, none, [⟨1⟩]⟩ (by decide)
  refine ⟨after, target, lands, later, expanded, found, live, fun far => ?_⟩
  rw [same far]
  simp

end CrossedLegs

end RigLowering
