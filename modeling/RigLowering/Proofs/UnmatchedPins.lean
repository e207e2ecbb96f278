import RigLowering.Proofs.ExpansionCensus
import RigLowering.Proofs.LinkCounts
import RigLowering.Proofs.Routine

namespace RigLowering

theorem PassState.steady_log (log : MessageLog) : Steady (·.log = log) where
  edited := fun _ same => same
  spawned := fun _ _ same => same
  reserved := fun _ same => same

theorem Pass.Quiet.log_eq {α : Type} {step : Pass α} {before after : PassState} {value : α}
    (quiet : step.Quiet) (yielded : Yields step before value after) : after.log = before.log :=
  ((PassState.steady_log before.log).keeps quiet).holds_after yielded rfl

namespace Target

open RigLowering.Graph

/-- The pin counts as a parameter, but the rig type has no field for it. -/
def isUnmatched (env : Environment) (target : Target) (pin : Pin) : Bool :=
  target.isParameter pin.direction pin &&
    (env.registry.findField? target.rigType pin.name pin.direction).isNone

def unmatched (env : Environment) (target : Target) (direction : PinDirection)
    (pins : List Pin) : List Pin :=
  pins.filter fun pin => pin.direction = direction && target.isUnmatched env pin

def warningOf (target : Target) (pin : Pin) : Diagnostic :=
  ⟨.warning, some target.node, target.unmatchedWarning pin.direction pin⟩

def warningAt (env : Environment) (target : Target) (direction : PinDirection) (graph : Graph)
    (id : PinId) : Option Diagnostic :=
  ((graph.pin? id).filter fun pin =>
    pin.direction = direction && target.isUnmatched env pin).map target.warningOf

variable {env : Environment} {target : Target} {direction : PinDirection} {base graph : Graph}
  {before after : PassState} {data : Node} {gathered : Option GatheredInputs}

theorem map_warningOf_unmatched (ids : List PinId) :
    (target.unmatched env direction (ids.filterMap graph.pin?)).map target.warningOf =
      ids.filterMap (target.warningAt env direction graph) := by
  rw [unmatched, List.filter_filterMap, List.map_filterMap]
  rfl

theorem warningAt_of_pin? {id : PinId} {pin : Pin} (live : graph.pin? id = some pin)
    (toward : pin.direction = direction) :
    target.warningAt env direction graph id =
      if target.isUnmatched env pin then some (target.warningOf pin) else none := by
  rw [warningAt, live, Option.filter_some]
  simp only [toward, decide_true, Bool.true_and]
  split <;> rfl

/-- Nothing is said of a pin of the other direction. -/
theorem warningAt_eq_none {id : PinId} (apart : ¬ (graph.face? id).any (·.direction = direction)) :
    target.warningAt env direction graph id = none := by
  rw [warningAt, Option.map_eq_none_iff, Option.filter_eq_none_iff]
  intro pin live matching
  rw [face?_of_pin? live] at apart
  simp only [Bool.and_eq_true, decide_eq_true_eq] at matching
  exact apart (decide_eq_true matching.1)

theorem log_of_parameter? {id : PinId} {answer : Option (PinId × Field)}
    (toward : (before.graph.face? id).any (·.direction = direction))
    (yielded : Yields (target.parameter? env direction id) before answer after) :
    after.log.entries =
      before.log.entries ++ (target.warningAt env direction before.graph id).toList := by
  obtain ⟨pin, middle, read, decided⟩ := yields_bind_iff.mp yielded
  obtain ⟨_, live⟩ := Edit.yields_pin_iff.mp (Pass.yields_edit read)
  have sameLog := (Pass.Quiet.query _).log_eq read
  have directed : pin.direction = direction := by
    simpa [face?_of_pin? live, Pin.face] using toward
  rw [warningAt_of_pin? live directed, isUnmatched, directed, ← sameLog]
  by_cases counts : target.isParameter direction pin
  · rw [if_pos counts] at decided
    rw [counts, Bool.true_and]
    cases found : env.registry.findField? target.rigType pin.name direction with
    | some field =>
        rw [found] at decided
        obtain ⟨_, rfl⟩ := yields_pure_iff.mp decided
        simp
    | none =>
        rw [found] at decided
        obtain ⟨_, last, warned, returned⟩ := yields_bind_iff.mp decided
        obtain ⟨_, rfl⟩ := yields_pure_iff.mp returned
        obtain rfl := yields_modify_iff.mp warned
        rw [warningOf, directed]
        rfl
  · rw [if_neg counts] at decided
    obtain ⟨_, rfl⟩ := yields_pure_iff.mp decided
    simp [counts]

theorem log_of_mapM_parameter? {ids : List PinId} {answers : List (Option (PinId × Field))}
    (toward : ∀ id ∈ ids, (before.graph.face? id).any (·.direction = direction))
    (yielded : Yields (ids.mapM (target.parameter? env direction)) before answers after) :
    after.log.entries =
      before.log.entries ++ ids.filterMap (target.warningAt env direction before.graph) := by
  induction ids generalizing before answers with
  | nil =>
      obtain ⟨_, rfl⟩ := yields_pure_iff.mp yielded
      simp
  | cons id rest ih =>
      rw [List.mapM_cons] at yielded
      obtain ⟨answer, middle, first, afterFirst⟩ := yields_bind_iff.mp yielded
      obtain ⟨others, last, second, returned⟩ := yields_bind_iff.mp afterFirst
      obtain ⟨_, rfl⟩ := yields_pure_iff.mp returned
      obtain ⟨headToward, restToward⟩ := List.forall_mem_cons.mp toward
      have sameGraph := (yields_parameter? first).1
      rw [ih (by rwa [sameGraph]) second, log_of_parameter? headToward first, sameGraph,
        List.append_assoc, List.filterMap_cons]
      cases target.warningAt env direction before.graph id <;> rfl

theorem log_of_parameters {parameters : List (PinId × Field)}
    (found : before.graph.node? target.node = some data)
    (yielded : Yields (target.parameters env direction) before parameters after) :
    after.log.entries =
      before.log.entries ++ data.pins.filterMap (target.warningAt env direction before.graph) := by
  obtain ⟨ids, middle, queried, mapping⟩ := yields_bind_iff.mp yielded
  obtain ⟨sameGraph, read⟩ := Pass.yields_query queried
  have sameLog := (Pass.Quiet.query _).log_eq queried
  obtain ⟨other, live, rfl⟩ := pinsToward_eq_ok read
  cases found.symm.trans live
  obtain ⟨answers, last, mapped, returned⟩ := yields_bind_iff.mp mapping
  obtain ⟨_, rfl⟩ := yields_pure_iff.mp returned
  rw [log_of_mapM_parameter? (by rw [sameGraph]; exact fun id => List.of_mem_filter) mapped,
    sameGraph, sameLog, List.filterMap_filter]
  congr 2
  funext id
  split
  · rfl
  · next apart => exact (warningAt_eq_none apart).symm

theorem log_of_allocate {subRig : SubRig}
    (yielded : Yields (target.allocate env) before subRig after) : after.log = before.log :=
  (target.keeps_allocate (PassState.steady_log before.log).keeps (fun _ same => same)
    env).holds_after yielded rfl

theorem log_of_expandInputs (found : before.graph.node? target.node = some data)
    (yielded : Yields (target.expandInputs env) before gathered after) :
    after.log.entries =
      before.log.entries ++ data.pins.filterMap (target.warningAt env .input before.graph) := by
  rw [expandInputs_eq] at yielded
  obtain ⟨parameters, first, scanning, afterScan⟩ := yields_bind_iff.mp yielded
  rw [← log_of_parameters found scanning]
  split at afterScan
  · obtain ⟨_, rfl⟩ := yields_pure_iff.mp afterScan
    rfl
  · obtain ⟨subRig, second, allocating, afterAllocate⟩ := yields_bind_iff.mp afterScan
    obtain ⟨_, third, gathering, returned⟩ := yields_bind_iff.mp afterAllocate
    obtain ⟨_, rfl⟩ := yields_pure_iff.mp returned
    rw [(target.gather_quiet env _ _).log_eq gathering, log_of_allocate allocating]

theorem provided_of_provide {subRig : SubRig} (regular : base.Regular)
    (found : base.node? target.node = some data)
    (gathers : target.GathersAs env base before.graph
      (target.parametersAmong env .input base data.pins) gathered)
    (yielded : Yields (target.provide env gathered) before subRig after) :
    after.log = before.log ∧ ∃ moved made,
      target.Provided env base after.graph subRig (gathered.map (·.delegate)) moved made := by
  have gone := @fst_parameters_listed env target base .input data regular found
  generalize target.parametersAmong env .input base data.pins = inputs at *
  cases gathers with
  | nothing empty same =>
      subst same
      obtain ⟨call, cast, stretch, allocated⟩ :=
        allocated_of_allocate regular.toSound (.refl _) regular yielded
      exact ⟨log_of_allocate yielded, [], _, stretch, by simp, allocated.gives, by simp⟩
  | event _ stretch gathers =>
      obtain ⟨rfl, rfl⟩ := yields_pure_iff.mp yielded
      obtain ⟨_, spawned⟩ := gathers.event
      refine ⟨rfl, _, _, stretch, gone, gathers.allocated.gives, ?_⟩
      rintro id ⟨⟩
      exact gathers.delegate.gives spawned.added

/-- What is warned of among the outputs can be told from the graph where the expansion began. -/
theorem Spent.filterMap_warningAt_eq {moved : List PinId} {made : List NodeId}
    (spent : target.Spent base moved) (regular : base.Regular)
    (stretch : Stretch base moved [] made base graph)
    (found : base.node? target.node = some data) :
    data.pins.filterMap (target.warningAt env .output graph) =
      data.pins.filterMap (target.warningAt env .output base) := by
  apply List.filterMap_congr
  intro id listed
  obtain ⟨face, faceFound, owner⟩ := regular.listed found listed
  have sameFace := stretch.extended.face?_eq faceFound
  by_cases scanned : face.direction = .output ∧ face.name ≠ PinName.rig
  · obtain ⟨output, notRig⟩ := scanned
    rw [warningAt, warningAt, spent.pin?_eq regular stretch faceFound owner output notRig]
  · have unsaid {other : Graph} (otherFound : other.face? id = some face) :
        target.warningAt env .output other id = none := by
      obtain ⟨pin, live, rfl, _⟩ := exists_pin?_of_face? otherFound
      have skipped : ¬ (pin.direction = .output ∧ pin.name ≠ PinName.rig) := scanned
      rw [warningAt, live, Option.map_eq_none_iff, Option.filter_eq_none_iff]
      rintro _ ⟨⟩ warned
      simp only [isUnmatched, Bool.and_eq_true, decide_eq_true_eq] at warned
      obtain ⟨output, counts, _⟩ := warned
      obtain ⟨_, _, notRig⟩ := isParameter_iff.mp counts
      exact skipped ⟨output, fun rig => notRig ⟨output, rig⟩⟩
    rw [unsaid faceFound, unsaid sameFace]

theorem log_of_deliver {subRig : SubRig} {delegate : Option PinId} {moved : List PinId}
    {made : List NodeId} (regular : base.Regular)
    (provided : target.Provided env base before.graph subRig delegate moved made)
    (found : base.node? target.node = some data)
    (yielded : Yields (target.deliver env delegate subRig) before () after) :
    after.log.entries =
      before.log.entries ++ data.pins.filterMap (target.warningAt env .output base) := by
  obtain ⟨rig, first, foundRig, afterRig⟩ := yields_bind_iff.mp yielded
  obtain ⟨_, second, transferring, afterTransfer⟩ := yields_bind_iff.mp afterRig
  obtain ⟨result, third, evaluating, afterEvaluate⟩ := yields_bind_iff.mp afterTransfer
  obtain ⟨parameters, fourth, scanning, readingOut⟩ := yields_bind_iff.mp afterEvaluate
  obtain ⟨_, spent, _, _, _, _, stretch, _⟩ :=
    evaluated_of_transfer regular provided found foundRig transferring evaluating
  have stays : third.graph.node? target.node = some data := by
    rw [stretch.keeps (lt_size_of_node? found), found]
  have sameLog : third.log = before.log := by
    rw [(Pass.Quiet.evaluate _ _ _ _).log_eq evaluating,
      (Pass.Quiet.transferPin _ _).log_eq transferring, (Pass.Quiet.findPin _ _ _).log_eq foundRig]
  rw [(Pass.Quiet.readOutputs _ _ _).log_eq readingOut, log_of_parameters stays scanning,
    spent.filterMap_warningAt_eq regular stretch found, sameLog]

theorem log_of_expand {outcome : Outcome} (regular : before.graph.Regular)
    (yielded : Yields (target.expand env) before outcome after) :
    ∃ data, before.graph.node? target.node = some data ∧
      after.log.entries = before.log.entries ++
        (data.pins.filterMap (target.warningAt env .input before.graph) ++
          data.pins.filterMap (target.warningAt env .output before.graph)) := by
  obtain ⟨gathered, first, gathering, afterInputs⟩ := yields_bind_iff.mp yielded
  obtain ⟨data, found, gathers⟩ := gathers_of_expandInputs regular gathering
  obtain ⟨index, second, readingOut, afterOutputs⟩ := yields_bind_iff.mp afterInputs
  rw [expandOutputs_eq] at readingOut
  obtain ⟨subRig, third, providing, afterProvide⟩ := yields_bind_iff.mp readingOut
  obtain ⟨_, fourth, delivering, answered⟩ := yields_bind_iff.mp afterProvide
  obtain ⟨_, rfl⟩ := yields_pure_iff.mp answered
  obtain ⟨sameLog, _, _, provided⟩ := provided_of_provide regular found gathers providing
  obtain ⟨_, fifth, unlinking, afterUnlink⟩ := yields_bind_iff.mp afterOutputs
  obtain ⟨_, sixth, marking, returned⟩ := yields_bind_iff.mp afterUnlink
  obtain ⟨_, rfl⟩ := yields_pure_iff.mp returned
  have edited {change : Edit Unit} {before after : PassState}
      (ran : Yields (Pass.edit change) before () after) : after.log = before.log :=
    (congrArg (fun outcome => outcome.2.log) ran).symm
  refine ⟨data, found, ?_⟩
  rw [edited marking, edited unlinking, log_of_deliver regular provided found delivering, sameLog,
    log_of_expandInputs found gathering, List.append_assoc]

theorem counts_or_disabled_or_unmatched (env : Environment) (target : Target) {pin : Pin}
    (linked : pin.isLinked) :
    target.Counts env pin ∨ (target.settings.disabled pin.direction).contains pin.name ∨
      target.isUnmatched env pin := by
  by_cases rig : pin.direction = .output ∧ pin.name = PinName.rig
  · exact .inl (.inl rig)
  by_cases disabled : (target.settings.disabled pin.direction).contains pin.name
  · exact .inr (.inl disabled)
  have counts : target.isParameter pin.direction pin :=
    isParameter_iff.mpr ⟨linked, disabled, rig⟩
  cases found : env.registry.findField? target.rigType pin.name pin.direction with
  | some field => exact .inl (.inr ⟨field, counts, found⟩)
  | none => exact .inr (.inr (by simp [isUnmatched, counts, found]))

/-- A link of a pin that counts is one of the pin that has replaced it. -/
theorem Reroutes.linked {lands : PinId → Option PinId} {id far : PinId} {pin : Pin}
    (reroutes : target.Reroutes env base graph lands) (sound : base.Sound)
    (live : base.pin? id = some pin) (owner : pin.owner = target.node)
    (counts : target.Counts env pin) (member : far ∈ pin.links) :
    ∃ dest, target.Replaces env base graph pin dest ∧ Added base graph dest ∧
      dest ∈ graph.links far ∧ far ∈ graph.links dest := by
  obtain ⟨dest, lands⟩ := Option.isSome_iff_exists.mp ((reroutes.counted live owner).mpr counts)
  have replaces := reroutes.replaces live owner lands
  rw [← links_of_pin? live] at member
  obtain ⟨_, farFace, _, farFound, _⟩ := sound.joinable member
  have foreign : ¬ base.Owns target.node far :=
    sound.not_owns_of_mem_links member ((owns_iff_of_pin? live).mpr owner)
  have linked : dest ∈ graph.links far := (reroutes.links (lt_size_of_face? farFound)).mpr
    ⟨foreign, id, sound.mem_links_comm.mp member, lands⟩
  exact ⟨dest, replaces, replaces.added, linked,
    reroutes.grown.regular.mem_links_comm.mp linked⟩

end Target

namespace Environment

open RigLowering.Graph

/-- An expansion warns of the linked pins that are neither disabled nor the sub-rig output and that
the rig type has no field for, of the inputs first, and of nothing else.  A link of the evaluator
has come to the pin that replaces its own, unless its own is disabled or has been warned of. -/
theorem expandNode_accounts_for_links (env : Environment) {node : NodeId} {index : UInt32}
    {event : Option NodeId} {before after : PassState} (wellFormed : before.graph.WellFormed)
    (expanded : (env.expandNode node).run before = (.ok (.expanded index event), after)) :
    ∃ (target : Target) (pins : List Pin),
      env.target before.fullCompile before.graph node = .ok (.inr target) ∧
      before.graph.pinsOf node = .ok pins ∧
      after.log.entries = before.log.entries ++
        (target.unmatched env .input pins ++ target.unmatched env .output pins).map
          target.warningOf ∧
      ∀ pin ∈ pins, ∀ far ∈ pin.links,
        (∃ dest, target.Replaces env before.graph after.graph pin dest ∧
          Added before.graph after.graph dest ∧ dest ∈ after.graph.links far ∧
            far ∈ after.graph.links dest) ∨
        (target.settings.disabled pin.direction).contains pin.name ∨
        pin ∈ target.unmatched env pin.direction pins := by
  have regular := wellFormed_iff_regular.mp wellFormed
  obtain ⟨target, lands, found, rfl, reroutes⟩ := yields_expanded regular expanded
  rcases yields_expandNode expanded with ⟨_, skipped, _⟩ | ⟨other, otherFound, expanding⟩
  · cases skipped
  cases found.symm.trans otherFound
  obtain ⟨data, live, entries⟩ := Target.log_of_expand regular expanding
  refine ⟨target, _, found, regular.pinsOf_eq live, ?_, ?_⟩
  · rw [List.map_append, Target.map_warningOf_unmatched, Target.map_warningOf_unmatched, entries]
  · intro pin member far linked
    obtain ⟨pinLive, owner⟩ := (regular.mem_pinsOf_iff (regular.pinsOf_eq live)).mp member
    have isLinked : pin.isLinked := by
      unfold Pin.isLinked
      cases links : pin.links with
      | nil => rw [links] at linked; cases linked
      | cons _ _ => rfl
    rcases target.counts_or_disabled_or_unmatched env isLinked with
      counts | disabled | unmatched
    · exact .inl (reroutes.linked regular.toSound pinLive owner counts linked)
    · exact .inr (.inl disabled)
    · exact .inr (.inr (List.mem_filter.mpr ⟨member, by simp [unmatched]⟩))

end Environment

/-! A leg with a linked input and a linked output that it has no fields for.  Its foot is linked as
well, but disabled. -/

namespace StrayLeg

def settings : EvaluatorSettings :=
  { EvaluatorSettings.unset with rigType := some "Leg", disabledOutputs := .ofNames ["foot"] }

def pins : List Pin :=
  [⟨⟨0⟩, ⟨0⟩, "height", .input, .float, none, none, [⟨5⟩]⟩,
    ⟨⟨1⟩, ⟨0⟩, "stray", .input, .float, none, none, [⟨5⟩]⟩,
    ⟨⟨2⟩, ⟨0⟩, "Rig", .output, .object "Leg", none, none, [⟨6⟩]⟩,
    ⟨⟨3⟩, ⟨0⟩, "foot", .output, .float, none, none, [⟨7⟩]⟩,
    ⟨⟨4⟩, ⟨0⟩, "trail", .output, .float, none, none, [⟨8⟩]⟩]

def graph : Graph where
  name := "StrayLeg"
  parentClass := none
  nodes := #[
    ⟨⟨0⟩, .evaluator settings, pins.map (·.id), none⟩,
    ⟨⟨1⟩, .primitive "dial", [⟨5⟩], none⟩,
    ⟨⟨2⟩, .primitive "consumer", [⟨6⟩, ⟨7⟩, ⟨8⟩], none⟩]
  pins := (pins.map some).toArray ++ #[
    some ⟨⟨5⟩, ⟨1⟩, "level", .output, .float, none, none, [⟨0⟩, ⟨1⟩]⟩,
    some ⟨⟨6⟩, ⟨2⟩, "rig", .input, .anyObject, none, none, [⟨2⟩]⟩,
    some ⟨⟨7⟩, ⟨2⟩, "foot", .input, .float, none, none, [⟨3⟩]⟩,
    some ⟨⟨8⟩, ⟨2⟩, "trail", .input, .float, none, none, [⟨4⟩]⟩]
  hierarchy := .empty
  undo := none

def start : PassState := .start CrossedLegs.registry .standard graph

theorem startWellFormed : start.graph.WellFormed where
  audited := rfl
  pinsOnce := by decide
  linksOnce := by decide
  namesOnce := by decide

/-- Both strays are warned of, and the dial comes to be linked to what the height is set by. -/
theorem warns_of_strays : start.graph.WellFormed ∧
    ∃ after, (CrossedLegs.env.expandNode ⟨0⟩).run start =
        (.ok (.expanded 0 (some ⟨5⟩)), after) ∧
      after.log.entries =
        [⟨.warning, some ⟨0⟩, "pin 'stray' does not match any Input field of Leg"⟩,
          ⟨.warning, some ⟨0⟩, "pin 'trail' does not match any Output field of Leg"⟩] ∧
      ∃ dest, Graph.Added start.graph after.graph dest ∧ dest ∈ after.graph.links ⟨5⟩ := by
  obtain ⟨after, expanded⟩ : ∃ after, (CrossedLegs.env.expandNode ⟨0⟩).run start =
      (.ok (.expanded 0 (some ⟨5⟩)), after) := Pass.exists_run_eq_ok (by decide +kernel)
  obtain ⟨target, listed, found, read, entries, accounted⟩ :=
    CrossedLegs.env.expandNode_accounts_for_links startWellFormed expanded
  cases (rfl : CrossedLegs.env.target true start.graph ⟨0⟩ =
    .ok (.inr ⟨⟨0⟩, "Leg", settings⟩)).symm.trans found
  cases (rfl : start.graph.pinsOf ⟨0⟩ = .ok pins).symm.trans read
  refine ⟨startWellFormed, after, expanded, entries.trans (by decide +kernel), ?_⟩
  rcases accounted ⟨⟨0⟩, ⟨0⟩, "height", .input, .float, none, none, [⟨5⟩]⟩ (by decide) ⟨5⟩
    (by decide) with ⟨dest, _, added, linked, _⟩ | disabled | unmatched
  · exact ⟨dest, added, linked⟩
  · exact absurd disabled (by decide)
  · exact absurd unmatched (by decide +kernel)

end StrayLeg

end RigLowering
