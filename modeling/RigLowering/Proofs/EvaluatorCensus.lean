import RigLowering.Proofs.FieldCensus

namespace RigLowering

namespace Graph

/-- The node is a pure cast of `object` to the rig class, and `result` is what it gives. -/
structure Casts (base graph : Graph) (source : NodeId) (rigType : String) (cast : NodeId)
    (object result : PinId) : Prop where
  spawned : Spawned base graph source (.cast rigType true) cast
  takes : graph.Fed cast PinName.castSource object
  gives : graph.HasPin cast ⟨.output, .object rigType, PinName.castResult rigType⟩ result
  added : Added base graph object

/-- An input that stands for its literals, since nothing is linked to it. -/
def Literally (graph : Graph) (node : NodeId) (name : String)
    (holds : Option String × Option String → Prop) : Prop :=
  ∃ id, graph.Port node .input name id ∧ graph.links id = [] ∧ holds (graph.literals id)

/-- The inputs of added nodes stand for what they did, and stay linked as they were as far as their
far ends are added too. -/
structure Retains (base before after : Graph) : Prop where
  extended : before.Extends after
  links : ∀ {id face}, before.face? id = some face → base.nodes.size ≤ face.owner.index →
    face.direction = .input → (∀ far ∈ before.links id, Added base before far) →
      after.links id = before.links id
  literals : ∀ {id face}, before.face? id = some face → base.nodes.size ≤ face.owner.index →
    after.literals id = before.literals id

/-- So does execution go on as it did. -/
structure RetainsOrder (base before after : Graph) : Prop extends Retains base before after where
  order : ∀ {id}, Gives base before .exec id → (∀ far ∈ before.links id, Added base before far) →
    after.links id = before.links id

/-- What is linked to an input of values gives values itself. -/
theorem Loose.of_linked {base before middle : Graph} {moved spliced : List PinId}
    {node : NodeId} {pinType : PinType} {name : String} {id input : PinId}
    (added : Added base before id) (sound : base.Sound) (begun : base.Extends before)
    (extension : before.Extends middle) (joinable : middle.Joinable id input)
    (compatible : middle.Compatible id input)
    (takes : middle.HasPin node ⟨.input, pinType, name⟩ input) (isValue : pinType.IsValue) :
    Loose base before moved spliced id := by
  have new := added.pinCount_le sound begun
  obtain ⟨face, found, _⟩ := added
  obtain ⟨far, farFound, _, spec⟩ := takes
  have input : far.direction = .input := congrArg PinSpec.direction spec
  obtain rfl : far.pinType = pinType := congrArg PinSpec.pinType spec
  obtain ⟨same, sameFar, sameFound, sameFarFound, direction, _⟩ := joinable
  have foundLater := extension.face?_eq found
  cases foundLater.symm.trans sameFound
  cases farFound.symm.trans sameFarFound
  have output : face.direction = .output := by
    rw [PinDirection.eq_opposite_of_ne direction.symm, input]
    rfl
  refine .inr ⟨new, .inr ⟨face, found, output, fun exec => ?_⟩⟩
  exact compatible.symm.not_execOutput farFound isValue ⟨face, foundLater, output, exec⟩

theorem Gives.added {base graph : Graph} {pinType : PinType} {id : PinId}
    (gives : Gives base graph pinType id) : Added base graph id := by
  obtain ⟨face, found, added, _⟩ := gives
  exact ⟨face, found, added⟩

section Retains

variable {base before after : Graph} {source node cast : NodeId} {name rigType : String}
  {output object result : PinId} {moved spliced : List PinId} {made : List NodeId}

theorem Stretch.retains (stretch : Stretch base moved spliced made before after)
    (outputs : ∀ pin ∈ spliced, before.ExecOutput pin) : Retains base before after where
  extended := stretch.extended
  links := by
    intro id face found new input _
    refine stretch.links_input found new input fun listed => ?_
    obtain ⟨same, sameFound, output, _⟩ := outputs id listed
    cases found.symm.trans sameFound
    cases input.symm.trans output
  literals := fun found _ => stretch.literals (lt_size_of_face? found) id

theorem Stretch.retainsOrder (stretch : Stretch base moved [] made before after) :
    RetainsOrder base before after where
  toRetains := stretch.retains (by simp)
  order := by
    rintro id ⟨face, found, new, _, typed⟩ _
    exact stretch.links_exec found new (typed ▸ rfl) List.not_mem_nil

theorem Retains.fed (retains : Retains base before after) (new : base.nodes.size ≤ node.index)
    (added : Added base before output) (fed : before.Fed node name output) :
    after.Fed node name output := by
  refine fed.kept retains.extended fun {id face} found owner input links => ?_
  rw [retains.links found (owner ▸ new) input (by simpa [links] using added), links]

theorem Retains.literally {holds : Option String × Option String → Prop}
    (retains : Retains base before after) (new : base.nodes.size ≤ node.index)
    (literally : before.Literally node name holds) : after.Literally node name holds := by
  obtain ⟨id, ⟨face, found, rfl, input, named⟩, unlinked, held⟩ := literally
  refine ⟨id, ⟨face, retains.extended.face?_eq found, rfl, input, named⟩, ?_, ?_⟩
  · rw [retains.links found new input (by simp [unlinked]), unlinked]
  · rwa [retains.literals found new]

theorem Casts.retained (casts : Casts base before source rigType cast object result)
    (retains : Retains base before after) :
    Casts base after source rigType cast object result where
  spawned := casts.spawned.mono rfl retains.extended
  takes := retains.fed casts.spawned.added casts.added casts.takes
  gives := casts.gives.mono retains.extended
  added := casts.added.mono retains.extended

theorem RetainsOrder.sequence {exec last : PinId} {nodes : List NodeId}
    (retains : RetainsOrder base before after) (sequence : before.Sequence exec nodes last)
    (new : ∀ node ∈ nodes, base.nodes.size ≤ node.index) (starts : Gives base before .exec exec) :
    after.Sequence exec nodes last :=
  sequence.mono retains.extended new starts fun gives added links => by
    rw [retains.order gives (by simpa [links] using added), links]

theorem RetainsOrder.runs {event : NodeId} {nodes : List NodeId}
    (retains : RetainsOrder base before after) (runs : before.Runs event nodes)
    (eventNew : base.nodes.size ≤ event.index)
    (new : ∀ node ∈ nodes, base.nodes.size ≤ node.index) : after.Runs event nodes := by
  obtain ⟨exec, last, hasExec, sequence, unlinked⟩ := runs
  have starts := hasExec.gives eventNew
  refine ⟨exec, last, hasExec.mono retains.extended, retains.sequence sequence new starts, ?_⟩
  rw [retains.order (sequence.gives_last new starts) (by simp [unlinked]), unlinked]

theorem Casts.result_gives (casts : Casts base before source rigType cast object result) :
    Gives base before (.object rigType) result :=
  casts.gives.gives casts.spawned.added

end Retains

end Graph

namespace Field

open RigLowering.Graph

variable {field : Field} {source writer : NodeId} {owner : String} {handle : PinId}
  {base before after : Graph} {made : List NodeId}

theorem WrittenBy.retained (written : field.WrittenBy source owner handle base before made writer)
    (retains : Retains base before after) (added : Added base before handle) :
    field.WrittenBy source owner handle base after made writer :=
  written.mono retains.extended fun new gives =>
    retains.fed new (gives.elim (fun same => same ▸ added) id)

theorem ReadBy.retained (read : field.ReadBy source owner handle base before made)
    (retains : Retains base before after) (added : Added base before handle) :
    field.ReadBy source owner handle base after made :=
  read.mono retains.extended fun new gives =>
    retains.fed new (gives.elim (fun same => same ▸ added) id)

end Field

namespace Target

open RigLowering.Graph

/-- The call that allocates the sub-rig, and the cast of the sub-rig to its class. -/
structure Allocated (env : Environment) (target : Target) (base graph : Graph)
    (call cast : NodeId) (index : UInt32) (handle : PinId) : Prop where
  spawned : Spawned base graph target.node (.call env.runtime.allocate.name true) call
  indexed : graph.Literally call RuntimeName.allocationIndex (·.1 = some (toString index))
  classed : graph.Literally call RuntimeName.rigClass (·.2 = some target.rigType)
  casts : ∃ returned, graph.Port call .output PinName.returnValue returned ∧
    Casts base graph target.node target.rigType cast returned handle

/-- The call that evaluates the sub-rig, after what the delegate stands for if there is one, and
the cast of what it returns. -/
structure Evaluated (env : Environment) (target : Target) (base graph : Graph)
    (delegate : Option PinId) (call cast : NodeId) (handle result : PinId) : Prop where
  spawned : Spawned base graph target.node (.call
    (if delegate.isSome then env.runtime.evaluateWithInputs else env.runtime.evaluate).name true)
    call
  onHandle : graph.Fed call RuntimeName.target handle
  gathered : ∀ id, delegate = some id → graph.Fed call RuntimeName.preEvaluate id
  casts : ∃ returned, graph.Port call .output PinName.returnValue returned ∧
    Casts base graph target.node target.rigType cast returned result

section Retained

variable {env : Environment} {target : Target} {base before after : Graph} {call cast : NodeId}
  {handle result : PinId}

theorem Allocated.retained {index : UInt32}
    (allocated : target.Allocated env base before call cast index handle)
    (retains : Retains base before after) :
    target.Allocated env base after call cast index handle where
  spawned := allocated.spawned.mono rfl retains.extended
  indexed := retains.literally allocated.spawned.added allocated.indexed
  classed := retains.literally allocated.spawned.added allocated.classed
  casts := by
    obtain ⟨returned, port, casts⟩ := allocated.casts
    exact ⟨returned, port.mono retains.extended, casts.retained retains⟩

theorem Allocated.gives {index : UInt32}
    (allocated : target.Allocated env base before call cast index handle) :
    Gives base before (.object target.rigType) handle := by
  obtain ⟨_, _, casts⟩ := allocated.casts
  exact casts.result_gives

theorem Evaluated.retained {delegate : Option PinId}
    (evaluated : target.Evaluated env base before delegate call cast handle result)
    (retains : Retains base before after) (handleAdded : Added base before handle)
    (delegateAdded : ∀ id, delegate = some id → Added base before id) :
    target.Evaluated env base after delegate call cast handle result where
  spawned := evaluated.spawned.mono rfl retains.extended
  onHandle := retains.fed evaluated.spawned.added handleAdded evaluated.onHandle
  gathered := fun id given =>
    retains.fed evaluated.spawned.added (delegateAdded id given) (evaluated.gathered id given)
  casts := by
    obtain ⟨returned, port, casts⟩ := evaluated.casts
    exact ⟨returned, port.mono retains.extended, casts.retained retains⟩

theorem Evaluated.gives {delegate : Option PinId}
    (evaluated : target.Evaluated env base before delegate call cast handle result) :
    Gives base before (.object target.rigType) result := by
  obtain ⟨_, _, casts⟩ := evaluated.casts
  exact casts.result_gives

end Retained

variable {base : Graph} {env : Environment} {target : Target} {before after : PassState}

theorem casts_of_castToRigType {object result : PinId} (sound : base.Sound)
    (begun : base.Extends before.graph) (regular : before.graph.Regular)
    (added : Added base before.graph object)
    (yielded : Yields (target.castToRigType object) before result after) :
    ∃ cast, Stretch base [] [] [cast] before.graph after.graph ∧
      Casts base after.graph target.node target.rigType cast object result := by
  obtain ⟨cast, _, spawning, afterSpawn⟩ := yields_bind_iff.mp yielded
  have makes := Pass.spawn_makes regular rfl spawning
  obtain ⟨source, first, queried, afterSource⟩ := yields_bind_iff.mp afterSpawn
  obtain ⟨rfl, searched⟩ := Pass.yields_query_iff.mp queried
  have hasSource : first.graph.HasPin cast ⟨.input, .anyObject, PinName.castSource⟩ source :=
    makes.hasPin (.refl _) makes.regular (by simp [PrimitivePins.cast])
      (findPin_eq_ok makes.regular.toSound searched)
  have new := makes.pinCount_le regular.toSound hasSource.owns
  obtain ⟨_, second, linking, answering⟩ := yields_bind_iff.mp afterSource
  obtain ⟨rfl, answered⟩ := Pass.yields_query_iff.mp answering
  have linked := Pass.link_footprint makes.regular linking
  obtain ⟨joinable, compatible, _⟩ := Edit.link_effect (Pass.yields_edit linking)
  have takes := (Edit.link_unlinked makes.regular.toSound (Pass.yields_edit linking)
    (makes.unlinked regular.toSound hasSource.owns)).2
  have spawned := (makes.spawned.since begun).mono rfl linked.extended
  have port := castResult_eq_ok linked.regular.toSound spawned answered
  refine ⟨cast, ?_, spawned, ⟨source, hasSource.port.mono linked.extended, takes⟩, ?_, ?_⟩
  · refine (Stretch.of_makes makes sound begun).andThen linked ?_ fun _ => id
    rintro id old (rfl | rfl)
    · exact .of_linked added sound begun makes.extended joinable compatible hasSource
        PinType.isValue_anyObject
    · exact (Nat.not_lt_of_le new old).elim
  · exact (makes.hasPin linked.extended linked.regular (by simp [PrimitivePins.cast]) port).mono
      linked.extended
  · exact added.mono (makes.extended.trans linked.extended)

/-- An input of a node that the stretch has made, which has no link, gets a literal. -/
theorem literally_of_set {start : Graph} {made : List NodeId} {node : NodeId} {name : String}
    {pin : PinId} {value object : Pin → Option String}
    (stretch : Stretch base [] [] made start before.graph) (sound : start.Sound)
    (port : before.graph.Port node .input name pin) (new : start.nodes.size ≤ node.index)
    (yielded : Yields (Pass.edit (.modifyPin pin (·.setLiterals value object))) before () after) :
    Stretch base [] [] made start after.graph ∧ before.graph.Extends after.graph ∧
      after.graph.links = before.graph.links ∧
      (∀ {holds : Option String × Option String → Prop}, (∀ data, holds (value data, object data)) →
        before.graph.links pin = [] → after.graph.Literally node name holds) ∧
      ∀ {other holds}, other ≠ name → before.graph.Literally node other holds →
        after.graph.Literally node other holds := by
  obtain ⟨changed, links, data, _, literals⟩ :=
    Pass.changeLiterals_footprint stretch.regular yielded
  have pinNew := stretch.pinCount_le_of_owns sound port.owns new
  refine ⟨?_, changed.extended, links, ?_, ?_⟩
  · exact stretch.andThen changed (fun _ => False.elim) fun old same =>
      Nat.not_lt_of_le pinNew (same ▸ old)
  · intro holds given unlinked
    exact ⟨pin, port.mono changed.extended, (congrFun links pin).trans unlinked,
      literals ▸ given data⟩
  · rintro other holds different ⟨id, otherPort, unlinked, held⟩
    refine ⟨id, otherPort.mono changed.extended, (congrFun links id).trans unlinked, ?_⟩
    have apart := otherPort.ne port different
    obtain ⟨face, found, _⟩ := otherPort
    rwa [changed.literals (lt_size_of_face? found) apart]

theorem allocated_of_allocate {subRig : SubRig} (sound : base.Sound)
    (begun : base.Extends before.graph) (regular : before.graph.Regular)
    (yielded : Yields (target.allocate env) before subRig after) :
    ∃ call cast, Stretch base [] [] [call, cast] before.graph after.graph ∧
      target.Allocated env base after.graph call cast subRig.index subRig.pin := by
  obtain ⟨call, first, spawning, afterSpawn⟩ := yields_bind_iff.mp yielded
  have makes := Pass.spawn_makes regular rfl spawning
  obtain ⟨index, second, taking, afterTake⟩ := yields_bind_iff.mp afterSpawn
  have sameSecond := Pass.Apart.yields_graph (fun _ _ _ => rfl) taking
  rw [← sameSecond] at makes
  have startSound := regular.toSound
  have stretch := Stretch.of_makes makes sound begun
  obtain ⟨indexPin, _, foundIndex, afterIndex⟩ := yields_bind_iff.mp afterTake
  obtain ⟨rfl, indexPort⟩ := Pass.yields_port makes.regular foundIndex
  obtain ⟨_, third, setIndex, afterSetIndex⟩ := yields_bind_iff.mp afterIndex
  change Yields (Pass.edit (.modifyPin indexPin
    (·.setLiterals (fun _ => some (toString index)) (·.defaultObject)))) _ _ _ at setIndex
  obtain ⟨toThird, thirdExtends, sameLinks, indexed, _⟩ :=
    literally_of_set stretch startSound indexPort makes.spawned.added setIndex
  have indexHeld : third.graph.Literally call RuntimeName.allocationIndex
      (·.1 = some (toString index)) :=
    indexed (fun _ => rfl) (makes.unlinked startSound indexPort.owns)
  obtain ⟨classPin, _, foundClass, afterClass⟩ := yields_bind_iff.mp afterSetIndex
  obtain ⟨rfl, classPort⟩ := Pass.yields_port toThird.regular foundClass
  obtain ⟨_, fourth, setClass, afterSetClass⟩ := yields_bind_iff.mp afterClass
  change Yields (Pass.edit (.modifyPin classPin
    (·.setLiterals (·.defaultValue) (fun _ => some target.rigType)))) _ _ _ at setClass
  obtain ⟨toFourth, fourthExtends, _, classed, others⟩ :=
    literally_of_set toThird startSound classPort makes.spawned.added setClass
  have classHeld : fourth.graph.Literally call RuntimeName.rigClass
      (·.2 = some target.rigType) := by
    refine classed (fun _ => rfl) ?_
    rw [sameLinks, makes.sameLinks]
    exact links_of_absent
      (toThird.pinCount_le_of_owns startSound classPort.owns makes.spawned.added)
  obtain ⟨returned, _, foundReturned, afterReturned⟩ := yields_bind_iff.mp afterSetClass
  obtain ⟨rfl, returnedPort⟩ := Pass.yields_port toFourth.regular foundReturned
  obtain ⟨handle, last, casting, done⟩ := yields_bind_iff.mp afterReturned
  obtain ⟨rfl, rfl⟩ := yields_pure_iff.mp done
  have spawned := (makes.spawned.since begun).mono rfl (thirdExtends.trans fourthExtends)
  obtain ⟨cast, casts, given⟩ := casts_of_castToRigType sound (begun.trans toFourth.extended)
    toFourth.regular (spawned.port_added returnedPort) casting
  have retains := casts.retains (by simp)
  refine ⟨call, cast, toFourth.trans casts (by simp), ?_⟩
  exact ⟨spawned.mono rfl casts.extended,
    retains.literally spawned.added (others (by decide) indexHeld),
    retains.literally spawned.added classHeld, returned, returnedPort.mono casts.extended, given⟩

/-- A value of known type comes to an input of a node that the stretch has made. -/
theorem fed_of_link {start : Graph} {made : List NodeId} {node : NodeId} {name : String}
    {pinType : PinType} {output input : PinId}
    (stretch : Stretch base [] [] made start before.graph) (regular : start.Regular)
    (gives : Gives base start pinType output) (value : pinType.isExec = false)
    (port : before.graph.Port node .input name input) (new : start.nodes.size ≤ node.index)
    (unlinked : before.graph.links input = [])
    (yielded : Yields (Pass.edit (.link output input)) before () after) :
    Stretch base [] [] made start after.graph ∧ before.graph.Extends after.graph ∧
      after.graph.Fed node name output ∧
      ∀ {id}, start.pins.size ≤ id.index → id ≠ input →
        after.graph.links id = before.graph.links id := by
  have linked := Pass.link_footprint stretch.regular yielded
  have inputNew := stretch.pinCount_le_of_owns regular.toSound port.owns new
  obtain ⟨_, found, _⟩ := gives
  have outputOld := lt_size_of_face? found
  have takes :=
    (Edit.link_unlinked stretch.regular.toSound (Pass.yields_edit yielded) unlinked).2
  refine ⟨stretch.andThen linked ?_ fun _ => id, linked.extended,
    ⟨input, port.mono linked.extended, takes⟩, ?_⟩
  · rintro id old (rfl | rfl)
    · exact .of_gives ⟨_, found, ‹_›⟩ stretch.sound stretch.begun value
    · exact (Nat.not_lt_of_le inputNew old).elim
  · intro id idNew different
    refine Edit.link_elsewhere (Pass.yields_edit yielded) ?_ different
    rintro rfl
    exact Nat.not_lt_of_le idNew outputOld

/-- The call on the sub-rig that an evaluation ends with. -/
theorem casts_of_callOnSubRig {start : Graph} {kind : NodeKind} {call : NodeId}
    {handle result : PinId} (stretch : Stretch base [] [] [call] start before.graph)
    (regular : start.Regular) (gives : Gives base start (.object target.rigType) handle)
    (spawned : Spawned start before.graph target.node kind call)
    (fresh : ∀ {id}, before.graph.Port call .input RuntimeName.target id →
      before.graph.links id = [])
    (yielded : Yields (do
      let rig ← Pass.findPin call RuntimeName.target .input
      Pass.edit (.link handle rig)
      let evaluated ← Pass.findPin call PinName.returnValue .output
      target.castToRigType evaluated) before result after) :
    ∃ cast returned, Stretch base [] [] [call, cast] start after.graph ∧
      before.graph.Extends after.graph ∧ after.graph.Fed call RuntimeName.target handle ∧
      (∀ {name output}, name ≠ RuntimeName.target → Added base before.graph output →
        before.graph.Fed call name output → after.graph.Fed call name output) ∧
      after.graph.Port call .output PinName.returnValue returned ∧
      Casts base after.graph target.node target.rigType cast returned result := by
  have callNew := Nat.le_trans stretch.begun.nodeCount spawned.added
  obtain ⟨rig, _, foundRig, afterRig⟩ := yields_bind_iff.mp yielded
  obtain ⟨rfl, rigPort⟩ := Pass.yields_port stretch.regular foundRig
  obtain ⟨_, first, linking, afterLink⟩ := yields_bind_iff.mp afterRig
  obtain ⟨joined, toFirst, onHandle, others⟩ :=
    fed_of_link stretch regular gives rfl rigPort spawned.added (fresh rigPort) linking
  obtain ⟨returned, _, foundReturned, casting⟩ := yields_bind_iff.mp afterLink
  obtain ⟨rfl, returnedPort⟩ := Pass.yields_port joined.regular foundReturned
  have returnedAdded : Added base first.graph returned := by
    obtain ⟨face, found, rfl, _⟩ := returnedPort
    exact ⟨face, found, callNew⟩
  obtain ⟨cast, widened, casts⟩ := casts_of_castToRigType stretch.sound joined.extends_base
    joined.regular returnedAdded casting
  have retains := widened.retains (by simp)
  refine ⟨cast, returned, joined.trans widened (by simp), toFirst.trans widened.extended,
    retains.fed callNew (gives.mono joined.extended).added onHandle, ?_,
    returnedPort.mono widened.extended, casts⟩
  rintro name output other added ⟨id, port, links⟩
  refine retains.fed callNew (added.mono toFirst) ⟨id, port.mono toFirst, ?_⟩
  have idNew := stretch.pinCount_le_of_owns regular.toSound port.owns spawned.added
  rw [others idNew (port.ne rigPort other), links]

theorem evaluated_of_evaluate {subRig : SubRig} {delegate : Option PinId} {result : PinId}
    {signature : String} (sound : base.Sound) (begun : base.Extends before.graph)
    (regular : before.graph.Regular)
    (gives : Gives base before.graph (.object target.rigType) subRig.pin)
    (delegates : ∀ id, delegate = some id → Gives base before.graph (.delegate signature) id)
    (yielded : Yields (target.evaluate env subRig delegate) before result after) :
    ∃ call cast, Stretch base [] [] [call, cast] before.graph after.graph ∧
      target.Evaluated env base after.graph delegate call cast subRig.pin result := by
  obtain ⟨call, first, spawning, afterSpawn⟩ := yields_bind_iff.mp yielded
  have makes := Pass.spawn_makes regular rfl spawning
  have startSound := regular.toSound
  have stretch := Stretch.of_makes makes sound begun
  have spawned := makes.spawned.since begun
  cases delegate with
  | none =>
      obtain ⟨cast, returned, widened, extended, onHandle, _, returnedPort, casts⟩ :=
        casts_of_callOnSubRig stretch regular gives makes.spawned
          (fun port => makes.unlinked startSound port.owns) afterSpawn
      exact ⟨call, cast, widened, spawned.mono rfl extended, onHandle,
        fun _ given => (nomatch given), returned, returnedPort, casts⟩
  | some delegate =>
      obtain ⟨parameter, _, found, afterFind⟩ := yields_bind_iff.mp afterSpawn
      obtain ⟨rfl, port⟩ := Pass.yields_port makes.regular found
      obtain ⟨_, second, linking, calling⟩ := yields_bind_iff.mp afterFind
      have delegateGives := delegates delegate rfl
      obtain ⟨joined, toSecond, gathered, others⟩ := fed_of_link stretch regular delegateGives rfl
        port makes.spawned.added (makes.unlinked startSound port.owns) linking
      have fresh {id : PinId} (rigPort : second.graph.Port call .input RuntimeName.target id) :
          second.graph.links id = [] := by
        have idNew := joined.pinCount_le_of_owns startSound rigPort.owns makes.spawned.added
        rw [others idNew (rigPort.ne (port.mono toSecond) (by decide)), makes.sameLinks,
          links_of_absent idNew]
      obtain ⟨cast, returned, widened, extended, onHandle, keeps, returnedPort, casts⟩ :=
        casts_of_callOnSubRig joined regular gives (makes.spawned.mono rfl toSecond) fresh calling
      refine ⟨call, cast, widened, spawned.mono rfl (toSecond.trans extended), onHandle, ?_,
        returned, returnedPort, casts⟩
      rintro _ given
      cases given
      exact keeps (by decide) (delegateGives.mono joined.extended).added gathered

end Target

end RigLowering
