import RigLowering.Proofs.FieldRerouting
import RigLowering.Proofs.Parameters

namespace RigLowering

namespace Graph

theorem castResult_eq_ok {base graph : Graph} {source cast : NodeId} {rigType : String}
    {isPure : Bool} {id : PinId} (sound : graph.Sound)
    (spawned : Spawned base graph source (.cast rigType isPure) cast)
    (answered : graph.castResult cast = .ok id) :
    graph.Port cast .output (PinName.castResult rigType) id := by
  obtain ⟨_, data, found, kind, _⟩ := spawned
  obtain ⟨node, read, searched⟩ := bind_eq_ok_iff.mp answered
  rw [node_eq_ok_iff, found] at read
  cases read
  rw [kind] at searched
  exact findPin_eq_ok sound searched

end Graph

namespace Pass

open RigLowering.Graph

theorem yields_changeLiterals_of_rerouting {base : Graph} {source : NodeId}
    {moved : PinId → PinId} {before after : PassState} {pin : PinId}
    {value object : Pin → Option String} (rerouting : Rerouting base source moved before.graph)
    (yielded : Yields (edit (.modifyPin pin (·.setLiterals value object))) before () after) :
    Undisturbed base source before.graph after.graph := by
  have changed := yields_edit yielded
  have regular := (Edit.Composed.changeLiterals pin value object).keeps_regular.holds_after changed
    rerouting.regular
  unfold Yields at changed
  rcases Edit.changeLiterals_cases pin value object before.graph with
    ⟨_, failed⟩ | ⟨_, done, frame, links⟩
  · exact (nomatch failed.symm.trans changed)
  · cases done.symm.trans changed
    exact .of_links_eq frame regular links

end Pass

namespace Target

open RigLowering.Graph

variable {base : Graph} {env : Environment} {target : Target} {moved : PinId → PinId}
  {before after : PassState}

theorem yields_castToRigType {object result : PinId}
    (rerouting : Rerouting base target.node moved before.graph)
    (added : Added base before.graph object)
    (yielded : Yields (target.castToRigType object) before result after) :
    Undisturbed base target.node before.graph after.graph ∧
      ∃ cast source, Spawned base after.graph target.node (.cast target.rigType true) cast ∧
        after.graph.Port cast .input PinName.castSource source ∧
        source ∈ after.graph.links object ∧
        after.graph.Port cast .output (PinName.castResult target.rigType) result := by
  obtain ⟨cast, first, spawning, afterSpawn⟩ := yields_bind_iff.mp yielded
  obtain ⟨opened, spawned⟩ := Pass.yields_spawn_of_rerouting rerouting rfl spawning
  obtain ⟨source, second, queried, afterSource⟩ := yields_bind_iff.mp afterSpawn
  obtain ⟨sameSecond, searched⟩ := Pass.yields_query queried
  have sourcePort := findPin_eq_ok opened.regular.toSound searched
  rw [← sameSecond] at opened spawned sourcePort
  obtain ⟨_, third, linking, answering⟩ := yields_bind_iff.mp afterSource
  obtain ⟨joined, linked⟩ := Pass.yields_link_of_rerouting (rerouting.undisturbed opened)
    (added.mono opened.extended) (spawned.port_added sourcePort) linking
  obtain ⟨sameLast, answered⟩ := Pass.yields_query answering
  have castSpawned := spawned.mono rfl joined.extended
  have port := castResult_eq_ok joined.regular.toSound castSpawned answered
  rw [sameLast]
  exact ⟨opened.trans joined, cast, source, castSpawned,
    Port.mono sourcePort joined.extended, linked, port⟩

theorem yields_allocate {subRig : SubRig}
    (rerouting : Rerouting base target.node moved before.graph)
    (yielded : Yields (target.allocate env) before subRig after) :
    Undisturbed base target.node before.graph after.graph ∧
      CastPort base after.graph target.node env.runtime.allocate.name target.rigType
        subRig.pin := by
  obtain ⟨call, first, spawning, afterSpawn⟩ := yields_bind_iff.mp yielded
  obtain ⟨opened, spawned⟩ := Pass.yields_spawn_of_rerouting rerouting rfl spawning
  obtain ⟨index, second, taking, afterTake⟩ := yields_bind_iff.mp afterSpawn
  have sameSecond := Pass.Apart.yields_graph (fun _ _ _ => rfl) taking
  rw [← sameSecond] at opened spawned
  obtain ⟨indexPin, third, foundIndex, afterIndex⟩ := yields_bind_iff.mp afterTake
  obtain ⟨sameThird, _⟩ := Pass.yields_findPin opened.regular foundIndex
  rw [← sameThird] at opened spawned
  obtain ⟨_, fourth, setIndex, afterSetIndex⟩ := yields_bind_iff.mp afterIndex
  change Yields (Pass.edit (.modifyPin indexPin
    (·.setLiterals (fun _ => some (toString index)) (·.defaultObject)))) _ _ _ at setIndex
  have indexed := Pass.yields_changeLiterals_of_rerouting (rerouting.undisturbed opened) setIndex
  have toFourth := opened.trans indexed
  obtain ⟨classPin, fifth, foundClass, afterClass⟩ := yields_bind_iff.mp afterSetIndex
  obtain ⟨sameFifth, _⟩ := Pass.yields_findPin toFourth.regular foundClass
  rw [← sameFifth] at toFourth indexed
  obtain ⟨_, sixth, setClass, afterSetClass⟩ := yields_bind_iff.mp afterClass
  change Yields (Pass.edit (.modifyPin classPin
    (·.setLiterals (·.defaultValue) (fun _ => some target.rigType)))) _ _ _ at setClass
  have classed := Pass.yields_changeLiterals_of_rerouting (rerouting.undisturbed toFourth) setClass
  have toSixth := toFourth.trans classed
  obtain ⟨allocated, seventh, foundReturned, afterReturned⟩ := yields_bind_iff.mp afterSetClass
  obtain ⟨sameSeventh, returnedPort⟩ := Pass.yields_findPin toSixth.regular foundReturned
  rw [← sameSeventh] at toSixth classed returnedPort
  have callSpawned :=
    spawned.mono rfl (indexed.extended.trans classed.extended)
  obtain ⟨handle, last, casting, returned⟩ := yields_bind_iff.mp afterReturned
  obtain ⟨rfl, rfl⟩ := yields_pure_iff.mp returned
  obtain ⟨widened, cast, object, castSpawned, objectPort, linked, port⟩ :=
    yields_castToRigType (rerouting.undisturbed toSixth) (callSpawned.port_added returnedPort)
      casting
  exact ⟨toSixth.trans widened, call, cast, allocated, object,
    callSpawned.mono rfl widened.extended, returnedPort.mono widened.extended, castSpawned,
    objectPort, linked, port⟩

/-- The call on the sub-rig that `evaluate` ends with. -/
theorem yields_callOnSubRig {kind : NodeKind} {call : NodeId} {subRig result : PinId}
    (rerouting : Rerouting base target.node moved before.graph)
    (added : Added base before.graph subRig)
    (spawned : Spawned base before.graph target.node kind call)
    (yielded : Yields (do
      let rig ← Pass.findPin call RuntimeName.target .input
      Pass.edit (.link subRig rig)
      let evaluated ← Pass.findPin call PinName.returnValue .output
      target.castToRigType evaluated) before result after) :
    Undisturbed base target.node before.graph after.graph ∧ Added base after.graph result := by
  obtain ⟨rig, first, foundRig, afterRig⟩ := yields_bind_iff.mp yielded
  obtain ⟨sameFirst, rigPort⟩ := Pass.yields_findPin rerouting.regular foundRig
  have rigAdded := spawned.port_added rigPort
  rw [← sameFirst] at rerouting added spawned rigAdded ⊢
  obtain ⟨_, second, linking, afterLink⟩ := yields_bind_iff.mp afterRig
  obtain ⟨joined, _⟩ := Pass.yields_link_of_rerouting rerouting added rigAdded linking
  obtain ⟨evaluated, third, foundReturned, casting⟩ := yields_bind_iff.mp afterLink
  obtain ⟨sameThird, ⟨face, found, owner, _⟩⟩ := Pass.yields_findPin joined.regular foundReturned
  have returnedAdded : Added base second.graph evaluated := ⟨face, found, owner ▸ spawned.added⟩
  rw [← sameThird] at joined returnedAdded
  obtain ⟨widened, cast, source, castSpawned, _, _, port⟩ :=
    yields_castToRigType (rerouting.undisturbed joined) returnedAdded casting
  exact ⟨joined.trans widened, castSpawned.port_added port⟩

theorem yields_evaluate {subRig : SubRig} {delegate : Option PinId} {result : PinId}
    (rerouting : Rerouting base target.node moved before.graph)
    (added : Added base before.graph subRig.pin)
    (delegateAdded : ∀ id, delegate = some id → Added base before.graph id)
    (yielded : Yields (target.evaluate env subRig delegate) before result after) :
    Undisturbed base target.node before.graph after.graph ∧ Added base after.graph result := by
  obtain ⟨call, first, spawning, afterSpawn⟩ := yields_bind_iff.mp yielded
  obtain ⟨opened, spawned⟩ := Pass.yields_spawn_of_rerouting rerouting rfl spawning
  have opening := rerouting.undisturbed opened
  cases delegate with
  | none =>
      obtain ⟨called, resultAdded⟩ :=
        yields_callOnSubRig opening (added.mono opened.extended) spawned afterSpawn
      exact ⟨opened.trans called, resultAdded⟩
  | some delegate =>
      obtain ⟨parameter, second, found, afterFind⟩ := yields_bind_iff.mp afterSpawn
      obtain ⟨same, port⟩ := Pass.yields_findPin opened.regular found
      rw [← same] at opened opening spawned port
      obtain ⟨_, third, linking, calling⟩ := yields_bind_iff.mp afterFind
      obtain ⟨joined, _⟩ := Pass.yields_link_of_rerouting opening
        ((delegateAdded delegate rfl).mono opened.extended) (spawned.port_added port) linking
      have toThird := opened.trans joined
      obtain ⟨called, resultAdded⟩ := yields_callOnSubRig (rerouting.undisturbed toThird)
        (added.mono toThird.extended) (spawned.mono rfl joined.extended) calling
      exact ⟨toThird.trans called, resultAdded⟩

/-- The parameters are pins of the evaluator whose links are where they were. -/
structure Waiting (target : Target) (base : Graph) (moved : PinId → PinId)
    (direction : PinDirection) (parameters : List (PinId × Field)) : Prop where
  nodup : (parameters.map (·.1)).Nodup
  stays : ∀ parameter ∈ parameters, moved parameter.1 = parameter.1
  owned : ∀ parameter ∈ parameters, ∃ face, base.face? parameter.1 = some face ∧
    face.owner = target.node ∧ face.direction = direction
  fields : ∀ parameter ∈ parameters, parameter.2.direction = direction

/-- The links of the parameters have come to where their fields are written or read, and no other
links have moved. -/
structure Settles (target : Target) (base : Graph) (parameters : List (PinId × Field))
    (moved later : PinId → PinId) (before after : Graph) : Prop where
  rerouting : Rerouting base target.node later after
  grows : Grows base target.node before after
  others : ∀ {id}, (∀ parameter ∈ parameters, parameter.1 ≠ id) → later id = moved id
  ports : ∀ parameter ∈ parameters,
    ValuePort base after target.node target.rigType parameter.2 (later parameter.1)

section Loops

variable {direction : PinDirection} {parameter : PinId × Field}
  {parameters rest : List (PinId × Field)} {handle : PinId}

theorem Waiting.head_ne (waiting : target.Waiting base moved direction (parameter :: rest)) :
    ∀ other ∈ rest, other.1 ≠ parameter.1 := by
  intro other member same
  have nodup := waiting.nodup
  rw [List.map_cons, List.nodup_cons] at nodup
  exact nodup.1 (List.mem_map.mpr ⟨other, member, same⟩)

theorem Waiting.tail (waiting : target.Waiting base moved direction (parameter :: rest))
    (dest : PinId) :
    target.Waiting base (redirect moved parameter.1 dest) direction rest where
  nodup := (List.nodup_cons.mp waiting.nodup).2
  stays := by
    intro other member
    unfold redirect
    rw [if_neg (waiting.head_ne other member)]
    exact waiting.stays other (List.mem_cons_of_mem _ member)
  owned := fun other member => waiting.owned other (List.mem_cons_of_mem _ member)
  fields := fun other member => waiting.fields other (List.mem_cons_of_mem _ member)

theorem Waiting.awaits (waiting : target.Waiting base moved direction (parameter :: rest))
    {graph : Graph} (rerouting : Rerouting base target.node moved graph)
    (added : Added base graph handle) (exec : Option PinId) :
    (target.access handle parameter.1 exec).Awaits base moved graph where
  rerouting := rerouting
  handle := added
  external := by
    obtain ⟨face, found, owner, _⟩ := waiting.owned parameter (by simp)
    exact ⟨face, found, owner⟩
  stays := waiting.stays parameter (by simp)
  direct := rfl

theorem Settles.nil {graph : Graph} (rerouting : Rerouting base target.node moved graph) :
    target.Settles base [] moved moved graph graph where
  rerouting := rerouting
  grows := .refl rerouting.regular
  others := fun _ => rfl
  ports := fun _ member => (nomatch member)

theorem Settles.cons {later : PinId → PinId} {exec : Option PinId} {dest : PinId}
    {first middle last : Graph}
    (delivers : (target.access handle parameter.1 exec).Delivers parameter.2 base moved first
      middle dest)
    (absent : ∀ other ∈ rest, other.1 ≠ parameter.1)
    (settles : target.Settles base rest (redirect moved parameter.1 dest) later middle last) :
    target.Settles base (parameter :: rest) moved later first last where
  rerouting := settles.rerouting
  grows := delivers.grows.trans settles.grows
  others := by
    intro id different
    rw [settles.others fun other member => different other (List.mem_cons_of_mem _ member)]
    exact if_neg (Ne.symm (different parameter (by simp)))
  ports := by
    intro other member
    rcases List.mem_cons.mp member with rfl | member
    · rw [settles.others absent, redirect, if_pos rfl]
      exact delivers.port.mono settles.grows.extended settles.grows.retains
    · exact settles.ports other member

/-- The writes run one after another, and only inputs are moved by them. -/
theorem yields_foldlM_expand {exec next : Option PinId}
    (waiting : target.Waiting base moved .input parameters)
    (rerouting : Rerouting base target.node moved before.graph)
    (added : Added base before.graph handle) (stay : OutputsStay base moved)
    (continues : ∀ id, exec = some id → Continues base before.graph target.node id)
    (yielded : Yields (parameters.foldlM (fun exec parameter =>
      (target.access handle parameter.1 exec).expand parameter.2) exec) before next after) :
    ∃ later, target.Settles base parameters moved later before.graph after.graph ∧
      OutputsStay base later := by
  induction parameters generalizing moved before exec with
  | nil =>
      obtain ⟨_, rfl⟩ := yields_pure_iff.mp yielded
      exact ⟨moved, .nil rerouting, stay⟩
  | cons parameter rest ih =>
      rw [List.foldlM_cons] at yielded
      obtain ⟨onward, middle, first, others⟩ := yields_bind_iff.mp yielded
      obtain ⟨face, found, _, input⟩ := waiting.owned parameter (by simp)
      obtain ⟨dest, delivers, id, rfl, continued⟩ := FieldAccess.yields_expand_input
        (waiting.fields parameter (by simp)) (waiting.awaits rerouting added exec)
        (fun dest => stay.redirect found input) continues first
      obtain ⟨later, settles, outputsStay⟩ := ih (waiting.tail dest) delivers.rerouting
        (added.mono delivers.grows.extended) (stay.redirect found input)
        (fun other same => by cases same; exact continued) others
      exact ⟨later, .cons delivers waiting.head_ne settles, outputsStay⟩

theorem yields_readOutputs (waiting : target.Waiting base moved .output parameters)
    (rerouting : Rerouting base target.node moved before.graph)
    (added : Added base before.graph handle)
    (yielded : Yields (target.readOutputs handle parameters) before () after) :
    ∃ later, target.Settles base parameters moved later before.graph after.graph := by
  unfold readOutputs at yielded
  induction parameters generalizing moved before with
  | nil =>
      obtain ⟨_, rfl⟩ := yields_pure_iff.mp yielded
      exact ⟨moved, .nil rerouting⟩
  | cons parameter rest ih =>
      obtain ⟨_, middle, first, others⟩ := yields_bind_iff.mp yielded
      obtain ⟨_, expanded⟩ := yields_discard_iff.mp first
      obtain ⟨dest, delivers⟩ := FieldAccess.yields_expand_output
        (waiting.fields parameter (by simp)) (waiting.awaits rerouting added none) expanded
      obtain ⟨later, settles⟩ := ih (waiting.tail dest) delivers.rerouting
        (added.mono delivers.grows.extended) others
      exact ⟨later, .cons delivers waiting.head_ne settles⟩

end Loops

end Target

end RigLowering
