import Mathlib.Data.List.Induction
import RigLowering.Proofs.ExpansionCensus
import RigLowering.Proofs.PassRerouting

namespace RigLowering

namespace Graph

/-- Only the face and the literals of a pin have been kept. -/
theorem pin?_of_kept {before after : Graph} {id : PinId} {pin : Pin}
    (live : before.pin? id = some pin) (face : after.face? id = before.face? id)
    (literals : after.literals id = before.literals id) :
    after.pin? id = some { pin with links := after.links id } :=
  pin?_of_face? (face.trans (face?_of_pin? live)) (literals.trans (literals_of_pin? live))

/-- The evaluators have become placeholders: their settings say so, and their pins have lost their
links.  The other nodes are as they were, and so are their pins but for the links.  A pin that was
linked to none of the evaluators has the links that it had, and no pin is removed. -/
structure Vacated (evaluators : List NodeId) (before after : Graph) : Prop where
  evaluator : ∀ node ∈ evaluators, ∃ data settings, before.node? node = some data ∧
    data.kind = .evaluator settings ∧
    after.node? node = some { data with kind := .evaluator { settings with inert := true } }
  emptied : ∀ id pin, before.pin? id = some pin → pin.owner ∈ evaluators →
    after.pin? id = some { pin with links := [] }
  node : ∀ id data, before.node? id = some data → id ∉ evaluators → after.node? id = some data
  pin : ∀ id pin, before.pin? id = some pin → pin.owner ∉ evaluators →
    ∃ links, after.pin? id = some { pin with links } ∧
      ((∀ far ∈ pin.links, ∀ node ∈ evaluators, ¬ before.Owns node far) → links = pin.links)
  removed : ∀ id : PinId, id.index < after.pins.size → after.pin? id = none →
    id.index < before.pins.size ∧ before.pin? id = none

section Vacated

variable {before middle after : Graph} {evaluators : List NodeId} {evaluator : NodeId}

theorem Vacated.of_same (nodes : after.nodes = before.nodes) (pins : after.pins = before.pins) :
    Vacated [] before after where
  evaluator := fun _ member => (nomatch member)
  emptied := fun _ _ _ member => (nomatch member)
  node := fun id data found _ => by rw [node?, nodes]; exact found
  pin := fun id pin live _ => ⟨pin.links, by rw [pin?, pins]; exact live, fun _ => rfl⟩
  removed := fun id bound absent => by
    rw [pin?, pins] at absent
    exact ⟨pins ▸ bound, absent⟩

/-- All pins stay where they are. -/
theorem Vacated.face?_eq (vacated : Vacated evaluators before after) {id : PinId} {face : PinFace}
    (found : before.face? id = some face) : after.face? id = some face := by
  obtain ⟨pin, live, rfl, _⟩ := exists_pin?_of_face? found
  by_cases member : pin.owner ∈ evaluators
  · have same := face?_of_pin? (vacated.emptied id pin live member)
    exact same
  · obtain ⟨links, laterLive, _⟩ := vacated.pin id pin live member
    have same := face?_of_pin? laterLive
    exact same

theorem Vacated.not_owns (vacated : Vacated evaluators before after) {id : PinId} {face : PinFace}
    (found : before.face? id = some face) {node : NodeId} (foreign : ¬ before.Owns node id) :
    ¬ after.Owns node id := by
  rintro ⟨other, otherFound, owner⟩
  rw [vacated.face?_eq found] at otherFound
  cases otherFound
  exact foreign ⟨face, found, owner⟩

/-- What has lost its links is linked to no evaluator that is expanded later. -/
theorem Vacated.step (first : Vacated evaluators before middle) (sound : before.Sound)
    (second : Vacated [evaluator] middle after) (old : evaluator.index < before.nodes.size)
    (fresh : evaluator ∉ evaluators) : Vacated (evaluator :: evaluators) before after where
  evaluator := by
    intro node member
    rcases List.mem_cons.mp member with rfl | earlier
    · obtain ⟨data, settings, found, kind, vacated⟩ := second.evaluator node (by simp)
      have live : before.node? node = some before.nodes[node.index] :=
        Array.getElem?_eq_getElem old
      cases (first.node _ _ live fresh).symm.trans found
      exact ⟨_, settings, live, kind, vacated⟩
    · obtain ⟨data, settings, found, kind, vacated⟩ := first.evaluator node earlier
      refine ⟨data, settings, found, kind, second.node _ _ vacated ?_⟩
      rintro isEvaluator
      exact fresh (List.mem_singleton.mp isEvaluator ▸ earlier)
  emptied := by
    intro id pin live member
    rcases List.mem_cons.mp member with isEvaluator | earlier
    · obtain ⟨links, middleLive, _⟩ := first.pin id pin live (isEvaluator ▸ fresh)
      have emptied := second.emptied id _ middleLive (by simp [isEvaluator])
      exact emptied
    · obtain ⟨links, afterLive, kept⟩ := second.pin id _ (first.emptied id pin live earlier) fun
        isEvaluator => fresh (List.mem_singleton.mp isEvaluator ▸ earlier)
      rw [afterLive, kept (by simp)]
  node := by
    intro id data found absent
    rw [List.mem_cons, not_or] at absent
    exact second.node id data (first.node id data found absent.2) (by simpa using absent.1)
  pin := by
    intro id pin live absent
    rw [List.mem_cons, not_or] at absent
    obtain ⟨links, middleLive, firstKept⟩ := first.pin id pin live absent.2
    obtain ⟨others, afterLive, secondKept⟩ := second.pin id _ middleLive (by simpa using absent.1)
    refine ⟨others, afterLive, fun apart => ?_⟩
    obtain rfl := firstKept fun far linked node member =>
      apart far linked node (List.mem_cons_of_mem _ member)
    refine secondKept fun far linked node member => ?_
    obtain rfl := List.mem_singleton.mp member
    obtain ⟨_, face, _, found, _⟩ := sound.joinable (links_of_pin? live ▸ linked)
    exact first.not_owns found (apart far linked node (by simp))
  removed := by
    intro id bound absent
    obtain ⟨middleBound, middleAbsent⟩ := second.removed id bound absent
    exact first.removed id middleBound middleAbsent

theorem Vacated.andThen_same (vacated : Vacated evaluators before middle)
    (nodes : after.nodes = middle.nodes) (pins : after.pins = middle.pins) :
    Vacated evaluators before after where
  evaluator := by
    simp only [node?, nodes]
    exact vacated.evaluator
  emptied := by
    simp only [pin?, pins]
    exact vacated.emptied
  node := by
    simp only [node?, nodes]
    exact vacated.node
  pin := by
    simp only [pin?, pins]
    exact vacated.pin
  removed := by
    simp only [pin?, pins]
    exact vacated.removed

/-! The way to one placeholder: the links of pins of the evaluator are moved, and then those that
it still has are broken. -/

section Retirement

variable {base : Graph} {moved : List PinId} {made : List NodeId} {id : PinId} {pin : Pin}

private theorem kept_of_retired (stretch : Stretch base moved [] made base middle)
    (retired : Retired evaluator middle after) (live : base.pin? id = some pin) :
    after.pin? id = some { pin with links := after.links id } := by
  have old := lt_size_of_face? (face?_of_pin? live)
  exact pin?_of_kept live ((retired.face id).trans (stretch.face old))
    ((retired.literals id).trans (stretch.literals old fun relit => relit))

private theorem owns_iff_of_stretch (stretch : Stretch base moved [] made base middle)
    {face : PinFace} (found : base.face? id = some face) :
    middle.Owns evaluator id ↔ base.Owns evaluator id := by
  simp only [Owns, stretch.face (lt_size_of_face? found)]

/-- Neither the moves nor what is broken after them come to a pin that is not linked to the
evaluator. -/
private theorem links_of_retired (regular : base.Regular)
    (stretch : Stretch base moved [] made base middle)
    (owned : ∀ pin ∈ moved, base.Owns evaluator pin) (retired : Retired evaluator middle after)
    (live : base.pin? id = some pin) (foreign : ¬ base.Owns evaluator id)
    (apart : ∀ far ∈ base.links id, ¬ base.Owns evaluator far) :
    after.links id = base.links id := by
  have found := face?_of_pin? live
  have sameMiddle : middle.links id = base.links id := by
    refine stretch.links_base (lt_size_of_face? found) (fun member => foreign (owned _ member)) ?_
    intro origin member linked
    exact apart origin (regular.mem_links_comm.mp linked) (owned _ member)
  rw [← sameMiddle]
  refine retired.others (mt (owns_iff_of_stretch stretch found).mp foreign) ?_
  intro far linked
  rw [sameMiddle] at linked
  obtain ⟨_, _, _, farFound, _⟩ := regular.joinable linked
  exact mt (owns_iff_of_stretch stretch farFound).mp (apart far linked)

theorem Vacated.of_retired {data : Node} {settings : EvaluatorSettings} (regular : base.Regular)
    (live : base.node? evaluator = some data) (read : data.kind.settings? = some settings)
    (stretch : Stretch base moved [] made base middle)
    (owned : ∀ pin ∈ moved, base.Owns evaluator pin) (retired : Retired evaluator middle after) :
    Vacated [evaluator] base after where
  evaluator := by
    intro node member
    obtain rfl := List.mem_singleton.mp member
    obtain ⟨id, kind, pins, spawnedBy⟩ := data
    cases kind with
    | evaluator other =>
        refine ⟨_, other, live, rfl, ?_⟩
        rw [retired.node, if_pos rfl, stretch.keeps (lt_size_of_node? live), live]
        rfl
    | _ => cases read
  emptied := by
    intro id pin pinLive member
    have found := face?_of_pin? pinLive
    have owner : base.Owns evaluator id := ⟨_, found, List.mem_singleton.mp member⟩
    rw [kept_of_retired stretch retired pinLive,
      retired.unlinked ((owns_iff_of_stretch stretch found).mpr owner)]
  node := by
    intro id other found different
    rw [retired.node, if_neg (fun same => different (by simp [same])),
      stretch.keeps (lt_size_of_node? found)]
    exact found
  pin := by
    intro id pin pinLive different
    refine ⟨_, kept_of_retired stretch retired pinLive, fun apart => ?_⟩
    have foreign : ¬ base.Owns evaluator id := by
      rw [owns_iff_of_pin? pinLive]
      exact fun owner => different (by simp [owner])
    rw [← links_of_pin? pinLive] at apart ⊢
    exact links_of_retired regular stretch owned retired pinLive foreign fun far linked =>
      apart far linked evaluator (by simp)
  removed := by
    intro id bound absent
    have faceless : after.face? id = none := by rw [face?, absent, Option.map_none]
    rw [retired.face] at faceless
    rcases Nat.lt_or_ge id.index base.pins.size with old | new
    · rw [stretch.face old] at faceless
      exact ⟨old, Option.map_eq_none_iff.mp faceless⟩
    · obtain ⟨face, found, _⟩ := stretch.added new (retired.pinCount ▸ bound)
      cases faceless.symm.trans found

end Retirement

end Vacated

end Graph

namespace Environment

open RigLowering.Graph

/-- All pins whose links an expansion moves are pins of the evaluator. -/
theorem moved_owned {env : Environment} {target : Target} {base : Graph} {data : Node} {rig : PinId}
    (regular : base.Regular) (found : base.node? target.node = some data)
    (rigPort : base.Port target.node .output PinName.rig rig) :
    ∀ pin ∈ (target.parametersAmong env .input base data.pins).map (·.1) ++
      rig :: (target.parametersAmong env .output base data.pins).map (·.1),
      base.Owns target.node pin := by
  have parameters {direction : PinDirection} : ∀ pin ∈
      (target.parametersAmong env direction base data.pins).map (·.1),
      base.Owns target.node pin := by
    intro pin member
    obtain ⟨parameter, listed, rfl⟩ := List.mem_map.mp member
    exact ((Target.parameters_listed regular found).1 parameter listed).1
  intro pin member
  rcases List.mem_append.mp member with input | rigOrOutput
  · exact parameters pin input
  · rcases List.mem_cons.mp rigOrOutput with rfl | output
    · obtain ⟨face, faceFound, owner, _⟩ := rigPort
      exact ⟨face, faceFound, owner⟩
    · exact parameters pin output

theorem vacated_of_expandNode {env : Environment} {node : NodeId} {index : UInt32}
    {event : Option NodeId} {before after : PassState} (regular : before.graph.Regular)
    (yielded : Yields (env.expandNode node) before (.expanded index event) after) :
    Vacated [node] before.graph after.graph := by
  obtain ⟨target, data, layout, middle, found, rfl, live, _, unfolds, retired⟩ :=
    unfolds_of_expandNode regular yielded
  obtain ⟨rig, rigPort, stretch⟩ := unfolds.stretch
  obtain ⟨_, sameData, settings, _, sameLive, read, _⟩ := target_eq_inr found
  cases live.symm.trans sameLive
  exact .of_retired regular live read stretch (moved_owned regular live rigPort) retired

variable {env : Environment} {progress next : PassState × Tally} {node : NodeId}

theorem counted_of_expanded {index : UInt32} {event : Option NodeId} {after : PassState}
    (expanded : (env.expandNode node).run progress.1.checkpoint =
      (.ok (.expanded index event), after))
    (ran : env.compileNode progress node = .ok next) :
    next.2.expanded = progress.2.expanded + 1 := by
  rcases compileNode_eq_ok ran with ⟨_, _, run, rfl⟩ | ⟨_, _, run, _⟩
  · cases expanded.symm.trans run
    rfl
  · cases expanded.symm.trans run

theorem counted_of_unexpanded
    (unexpanded : ¬ ∃ index event after, (env.expandNode node).run progress.1.checkpoint =
      (.ok (.expanded index event), after))
    (ran : env.compileNode progress node = .ok next) :
    next.2.expanded = progress.2.expanded := by
  rcases compileNode_eq_ok ran with ⟨outcome, after, run, rfl⟩ | ⟨_, _, _, _, rfl⟩
  · cases outcome with
    | expanded index event => exact (unexpanded ⟨index, event, after, run⟩).elim
    | skipped reason => rfl
  · rfl

/-- The pass has expanded the evaluators of the list, each once, and it has counted them. -/
structure Vacates (env : Environment) (start : PassState) (composites : List NodeId)
    (input : Graph) (done expanded : List NodeId) (progress : PassState × Tally) : Prop where
  vacated : Vacated expanded input progress.1.graph
  regular : progress.1.graph.Regular
  nodup : expanded.Nodup
  counted : expanded.length = progress.2.expanded
  expanded_iff : ∀ node, node ∈ expanded ↔
    node ∈ done ∧ ∃ before after, env.Expands start composites node before after

section Vacates

variable {start : PassState} {composites done rest expanded : List NodeId} {input : Graph}

/-- Of a composite that the pass comes to now it has not counted anything yet. -/
private theorem Vacates.skip (nodup : composites.Nodup)
    (split : composites = done ++ node :: rest)
    (reached : done.foldlM env.compileNode (start, .zero) = .ok progress)
    (vacates : env.Vacates start composites input done expanded progress)
    (unexpanded : ¬ ∃ index event after, (env.expandNode node).run progress.1.checkpoint =
      (.ok (.expanded index event), after)) (same : next.1.graph = progress.1.graph.commit)
    (ran : env.compileNode progress node = .ok next) :
    env.Vacates start composites input (done ++ [node]) expanded next where
  vacated := same ▸ vacates.vacated.andThen_same rfl rfl
  regular := durable_regular.compileNode ran vacates.regular
  nodup := vacates.nodup
  counted := (counted_of_unexpanded unexpanded ran).symm ▸ vacates.counted
  expanded_iff := by
    intro other
    rw [vacates.expanded_iff, List.mem_append, List.mem_singleton]
    constructor
    · rintro ⟨member, expands⟩
      exact ⟨.inl member, expands⟩
    · rintro ⟨member | rfl, before, after, expands⟩
      · exact ⟨member, before, after, expands⟩
      · obtain rfl := expands.before_eq nodup split reached
        obtain ⟨index, event, expanded⟩ := expands.expanded
        exact (unexpanded ⟨index, event, after, expanded⟩).elim

private theorem Vacates.expand (nodup : composites.Nodup)
    (split : composites = done ++ node :: rest) (sound : input.Sound)
    (old : node.index < input.nodes.size)
    (reached : done.foldlM env.compileNode (start, .zero) = .ok progress)
    (vacates : env.Vacates start composites input done expanded progress) {index : UInt32}
    {event : Option NodeId} {after : PassState}
    (expanding : (env.expandNode node).run progress.1.checkpoint =
      (.ok (.expanded index event), after)) (same : next.1.graph = after.graph.commit)
    (ran : env.compileNode progress node = .ok next) :
    env.Vacates start composites input (done ++ [node]) (node :: expanded) next := by
  have expands : env.Expands start composites node progress.1.checkpoint after :=
    ⟨⟨done, rest, progress.1, progress.2, split, reached, rfl⟩, index, event, expanding⟩
  have fresh : node ∉ expanded := by
    rw [split] at nodup
    intro member
    exact (List.nodup_append.mp nodup).2.2 _ ((vacates.expanded_iff node).mp member).1 _ (by simp)
      rfl
  have opened : Vacated expanded input progress.1.checkpoint.graph :=
    vacates.vacated.andThen_same rfl rfl
  have closed : Vacated (node :: expanded) input after.graph.commit :=
    (opened.step sound (vacated_of_expandNode (durable_regular.checkpoint vacates.regular)
      expanding) old fresh).andThen_same rfl rfl
  refine ⟨same ▸ closed, durable_regular.compileNode ran vacates.regular,
    List.nodup_cons.mpr ⟨fresh, vacates.nodup⟩, ?_, ?_⟩
  · rw [counted_of_expanded expanding ran, List.length_cons, vacates.counted]
  · intro other
    rw [List.mem_cons, vacates.expanded_iff, List.mem_append, List.mem_singleton]
    constructor
    · rintro (rfl | ⟨member, otherExpands⟩)
      · exact ⟨.inr rfl, _, _, expands⟩
      · exact ⟨.inl member, otherExpands⟩
    · rintro ⟨member | rfl, otherExpands⟩
      · exact .inr ⟨member, otherExpands⟩
      · exact .inl rfl

theorem vacates_foldlM (nodup : composites.Nodup)
    (old : ∀ node ∈ composites, node.index < input.nodes.size) (sound : input.Sound)
    (vacated : Vacated [] input start.graph) (regular : start.graph.Regular)
    (split : composites = done ++ rest)
    (ran : done.foldlM env.compileNode (start, .zero) = .ok next) :
    ∃ expanded, env.Vacates start composites input done expanded next := by
  -- A composite is expanded in the graph that those before it leave, so they come off the end.
  induction done using List.reverseRecOn generalizing next rest with
  | nil =>
      cases ran
      exact ⟨[], vacated, regular, .nil, rfl, by simp⟩
  | append_singleton done node ih =>
      rw [List.foldlM_append] at ran
      obtain ⟨progress, reached, last⟩ := bind_eq_ok_iff.mp ran
      have stepped : env.compileNode progress node = .ok next := by simpa using last
      have onward : composites = done ++ node :: rest := by simp [split]
      obtain ⟨expanded, vacates⟩ := ih onward reached
      rcases compileNode_cases stepped with ⟨_, _, _, expanding, same⟩ | ⟨unexpanded, same⟩
      · exact ⟨_, Vacates.expand nodup onward sound (old node (by simp [split])) reached vacates
          expanding same stepped⟩
      · exact ⟨_, Vacates.skip nodup onward reached vacates unexpanded same stepped⟩

end Vacates

end Environment

namespace Graph

/-- An expansion makes a placeholder of the evaluator, and all else that was there stays but for the
links to it.  So it is over a whole pass with all the evaluators that the pass counts as
expanded. -/
theorem expansion_leaves_placeholders :
    (∀ (env : Environment) (node : NodeId) (index : UInt32) (event : Option NodeId)
        (before after : PassState), before.graph.WellFormed →
      (env.expandNode node).run before = (.ok (.expanded index event), after) →
      Vacated [node] before.graph after.graph) ∧
    ∀ (graph : Graph) (registry : RigRegistry) (runtime : RigRuntime) (options : PassOptions)
        (compiled : CompiledGraph), graph.WellFormed →
      graph.compile registry runtime options = .ok compiled →
      ∃ expanded : List NodeId, expanded.Nodup ∧ expanded.length = compiled.stats.expanded ∧
        (∀ node, node ∈ expanded ↔
          ∃ before after, graph.Expands registry runtime options node before after) ∧
        Vacated expanded graph compiled.graph := by
  constructor
  · intro env node index event before after wellFormed
    exact Environment.vacated_of_expandNode (wellFormed_iff_regular.mp wellFormed)
  · intro graph registry runtime options compiled wellFormed ran
    have regular := wellFormed_iff_regular.mp wellFormed
    obtain ⟨final, folded, rfl⟩ := compile_eq_ok ran
    have begun : (PassState.start registry options graph).graph.Regular :=
      regular.of_links_eq ⟨rfl, rfl, fun _ => rfl, fun _ => rfl⟩ fun _ => rfl
    obtain ⟨expanded, vacates⟩ := Environment.vacates_foldlM regular.composites_nodup
      (fun _ => regular.mem_composites_lt) regular.toSound (.of_same rfl rfl) begun
      (List.append_nil _).symm folded
    refine ⟨expanded, vacates.nodup, vacates.counted, fun node => ?_, vacates.vacated⟩
    rw [vacates.expanded_iff]
    constructor
    · exact fun expands => expands.2
    · rintro ⟨before, after, expands⟩
      obtain ⟨done, rest, _, _, split, _⟩ := expands.reached
      exact ⟨by simp [split], before, after, expands⟩

end Graph

namespace CrossedLegs

open RigLowering.Graph

/-- The first leg is still a placeholder when the second one, to which it was linked, has been
expanded too. -/
theorem legs_become_placeholders :
    (∃ after, (env.expandNode ⟨0⟩).run start = (.ok (.expanded 0 (some ⟨5⟩)), after) ∧
      Vacated [⟨0⟩] start.graph after.graph) ∧
    ∃ (compiled : CompiledGraph) (expanded : List NodeId),
      graph.compile registry (.standard "Rig") .standard = .ok compiled ∧
      expanded.length = compiled.stats.expanded ∧ Vacated expanded graph compiled.graph := by
  constructor
  · obtain ⟨after, expanded⟩ := firstExpanded
    exact ⟨after, expanded,
      expansion_leaves_placeholders.1 env ⟨0⟩ 0 (some ⟨5⟩) start after startWellFormed expanded⟩
  · obtain ⟨compiled, ran⟩ := compiles
    obtain ⟨expanded, _, counted, _, vacated⟩ :=
      expansion_leaves_placeholders.2 graph registry _ _ compiled wellFormed ran
    exact ⟨compiled, expanded, ran, counted, vacated⟩

end CrossedLegs

end RigLowering
