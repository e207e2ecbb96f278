import Mathlib.Data.List.Basic
import RigLowering.Proofs.CopyingPass
import RigLowering.Proofs.ExpansionRerouting

namespace RigLowering

namespace Graph

/-- A pin that was made for `source` after `input`. -/
def Made (input graph : Graph) (source : NodeId) (id : PinId) : Prop :=
  ∃ face data, graph.face? id = some face ∧ input.nodes.size ≤ face.owner.index ∧
    graph.node? face.owner = some data ∧ data.spawnedBy = some source

/-- Two pins that were made for one evaluator. -/
def MadeTogether (input graph : Graph) (a b : PinId) : Prop :=
  ∃ source, Made input graph source a ∧ Made input graph source b

theorem MadeTogether.symm {input graph : Graph} {a b : PinId}
    (together : MadeTogether input graph a b) : MadeTogether input graph b a := by
  obtain ⟨source, first, second⟩ := together
  exact ⟨source, second, first⟩

theorem Made.not_owns {input graph : Graph} {source node : NodeId} {id : PinId}
    (made : Made input graph source id) (old : node.index < input.nodes.size) :
    ¬ graph.Owns node id := by
  rintro ⟨face, found, rfl⟩
  obtain ⟨other, _, otherFound, new, _⟩ := made
  rw [found] at otherFound
  cases otherFound
  exact Nat.not_lt_of_le new old

theorem Extends.made_iff {input graph later : Graph} (extension : graph.Extends later)
    (sound : graph.Sound) {source : NodeId} {id : PinId} (old : id.index < graph.pins.size) :
    Made input later source id ↔ Made input graph source id := by
  unfold Made
  rw [extension.face old]
  constructor
  · rintro ⟨face, data, found, new, owner, spawnedBy⟩
    obtain ⟨earlier, earlierFound, _⟩ := sound.owned found
    obtain ⟨same, _, sameFound, sameSpawnedBy, _⟩ := extension.node earlierFound
    rw [owner] at sameFound
    cases sameFound
    exact ⟨face, earlier, found, new, earlierFound, sameSpawnedBy.symm.trans spawnedBy⟩
  · rintro ⟨face, data, found, new, owner, spawnedBy⟩
    obtain ⟨later, _, laterFound, laterSpawnedBy, _⟩ := extension.node owner
    exact ⟨face, later, found, new, laterFound, laterSpawnedBy.trans spawnedBy⟩

/-- `graph` has come from `input` by expanding the nodes `done`.  The links of `input` are where
their ends have landed, and there are no others but within what was made for one evaluator. -/
structure Rewired (input graph : Graph) (done : List NodeId) (lands : PinId → Option PinId) :
    Prop where
  inputRegular : input.Regular
  regular : graph.Regular
  extended : input.Extends graph
  node : ∀ {id data}, graph.node? id = some data → input.nodes.size ≤ id.index →
    ∃ source ∈ done, data.spawnedBy = some source
  pin : ∀ {id face}, graph.face? id = some face → input.pins.size ≤ id.index →
    input.nodes.size ≤ face.owner.index
  keeps : ∀ {id}, id.index < input.nodes.size → id ∉ done → graph.node? id = input.node? id
  stays : ∀ {id}, (∀ node ∈ done, ¬ input.Owns node id) → lands id = some id
  directed : ∀ {id dest face}, input.face? id = some face → lands id = some dest →
    ∃ destFace, graph.face? dest = some destFace ∧ destFace.direction = face.direction
  links : ∀ {a b}, b ∈ graph.links a ∧ ¬ MadeTogether input graph a b ↔
    ∃ o i, i ∈ input.links o ∧ lands o = some a ∧ lands i = some b

section Rewired

variable {input graph later : Graph} {done : List NodeId} {lands : PinId → Option PinId}

theorem Rewired.start (regular : input.Regular) (same : input.SameFrame graph)
    (links : ∀ id, graph.links id = input.links id) : Rewired input graph [] some where
  inputRegular := regular
  regular := regular.of_links_eq same links
  extended := same.extended
  node := fun found new =>
    (Nat.not_lt_of_le new (lt_size_of_node? (same.node _ ▸ found))).elim
  pin := fun found new =>
    (Nat.not_lt_of_le new (lt_size_of_face? (same.face _ ▸ found))).elim
  keeps := fun _ _ => same.node _
  stays := fun _ => rfl
  directed := by
    intro id dest face found landed
    cases landed
    exact ⟨face, (same.face id).trans found, rfl⟩
  links := by
    intro a b
    rw [links]
    constructor
    · rintro ⟨member, _⟩
      exact ⟨a, b, member, rfl, rfl⟩
    · rintro ⟨o, i, member, oLands, iLands⟩
      cases oLands
      cases iLands
      refine ⟨member, ?_⟩
      rintro ⟨source, ⟨face, _, found, new, _⟩, _⟩
      obtain ⟨_, owner, _⟩ := regular.owned (same.face _ ▸ found)
      exact Nat.not_lt_of_le new (lt_size_of_node? owner)

theorem Rewired.not_made (rewired : Rewired input graph done lands) {source : NodeId}
    (fresh : source ∉ done) (id : PinId) : ¬ Made input graph source id := by
  rintro ⟨face, data, _, new, owner, spawnedBy⟩
  obtain ⟨other, member, otherSpawnedBy⟩ := rewired.node owner new
  rw [spawnedBy] at otherSpawnedBy
  cases otherSpawnedBy
  exact fresh member

theorem Rewired.owns_iff (rewired : Rewired input graph done lands) {node : NodeId}
    (old : node.index < input.nodes.size) {id : PinId} :
    graph.Owns node id ↔ input.Owns node id :=
  rewired.extended.owns_iff rewired.pin old

theorem Rewired.of_links_eq (rewired : Rewired input graph done lands)
    (frame : graph.SameFrame later) (links : ∀ id, later.links id = graph.links id) :
    Rewired input later done lands where
  inputRegular := rewired.inputRegular
  regular := rewired.regular.of_links_eq frame links
  extended := rewired.extended.trans frame.extended
  node := fun found => rewired.node (frame.node _ ▸ found)
  pin := fun found => rewired.pin (frame.face _ ▸ found)
  keeps := fun old absent => (frame.node _).trans (rewired.keeps old absent)
  stays := rewired.stays
  directed := by
    intro id dest face found landed
    obtain ⟨destFace, destFound, direction⟩ := rewired.directed found landed
    exact ⟨destFace, (frame.face dest).trans destFound, direction⟩
  links := by
    intro a b
    rw [← rewired.links, links]
    simp only [MadeTogether, Made, frame.face, frame.node]

variable {env : Environment} {target : Target} {further : PinId → Option PinId}

/-- What was there before the expansion and is no pin of the evaluator has the links that it had,
up to where they have landed. -/
private theorem exists_origin (rewired : Rewired input graph done lands)
    (reroutes : target.Reroutes env graph later further)
    (old : target.node.index < input.nodes.size) {a b : PinId} (aOld : a.index < graph.pins.size)
    (member : b ∈ later.links a) (apart : ¬ MadeTogether input later a b) :
    ∃ o i, i ∈ input.links o ∧ (lands o).bind further = some a ∧
      (lands i).bind further = some b := by
  obtain ⟨foreign, q, qMember, landed⟩ := (reroutes.links aOld).mp member
  have apartBefore : ¬ MadeTogether input graph a q := by
    rintro ⟨source, aMade, qMade⟩
    have qOld : q.index < graph.pins.size := by
      obtain ⟨face, _, found, _⟩ := qMade
      exact lt_size_of_face? found
    have stays := reroutes.stays (qMade.not_owns old)
    rw [landed] at stays
    cases stays
    have sound := rewired.regular.toSound
    exact apart ⟨source, (reroutes.grown.extended.made_iff sound aOld).mpr aMade,
      (reroutes.grown.extended.made_iff sound qOld).mpr qMade⟩
  obtain ⟨o, i, linked, oLands, iLands⟩ := rewired.links.mp ⟨qMember, apartBefore⟩
  refine ⟨o, i, linked, ?_, ?_⟩
  · rw [oLands]
    exact reroutes.stays foreign
  · rw [iLands]
    exact landed

private theorem link_lands (rewired : Rewired input graph done lands)
    (reroutes : target.Reroutes env graph later further) (fresh : target.node ∉ done)
    {a b dest : PinId}
    (member : b ∈ graph.links a) (apart : ¬ MadeTogether input graph a b)
    (foreign : ¬ graph.Owns target.node a) (landed : further b = some dest) :
    dest ∈ later.links a ∧ ¬ MadeTogether input later a dest := by
  obtain ⟨face, bFace, found, bFound, _⟩ := rewired.regular.joinable member
  have aOld := lt_size_of_face? found
  have sound := rewired.regular.toSound
  refine ⟨(reroutes.links aOld).mpr ⟨foreign, b, member, landed⟩, ?_⟩
  rintro ⟨source, aMade, destMade⟩
  rw [reroutes.grown.extended.made_iff sound aOld] at aMade
  by_cases owned : graph.Owns target.node b
  · obtain ⟨_, bFoundAgain, owner⟩ := owned
    obtain ⟨pin, live, rfl, _⟩ := exists_pin?_of_face? bFoundAgain
    obtain ⟨destFace, destFound, new⟩ := (reroutes.replaces live owner landed).added
    obtain ⟨other, data, otherFound, _, dataFound, spawnedBy⟩ := destMade
    rw [destFound] at otherFound
    cases otherFound
    rw [reroutes.grown.node dataFound new] at spawnedBy
    cases spawnedBy
    exact rewired.not_made fresh a aMade
  · rw [reroutes.stays owned] at landed
    cases landed
    rw [reroutes.grown.extended.made_iff sound (lt_size_of_face? bFound)] at destMade
    exact apart ⟨source, aMade, destMade⟩

private theorem made_of_new (rewired : Rewired input graph done lands)
    (reroutes : target.Reroutes env graph later further) {id : PinId} {face : PinFace}
    (found : later.face? id = some face) (new : graph.pins.size ≤ id.index) :
    Made input later target.node id := by
  have late := reroutes.grown.pin found new
  obtain ⟨data, owner, _⟩ := reroutes.grown.regular.owned found
  exact ⟨face, data, found, Nat.le_trans rewired.extended.nodeCount late, owner,
    reroutes.grown.node owner late⟩

/-- What is new is linked to nothing else that is new but to what was made with it, so that a link
of another kind has an end that was there before. -/
private theorem exists_origins (rewired : Rewired input graph done lands)
    (reroutes : target.Reroutes env graph later further)
    (old : target.node.index < input.nodes.size) {a b : PinId}
    (member : b ∈ later.links a) (apart : ¬ MadeTogether input later a b) :
    ∃ o i, i ∈ input.links o ∧ (lands o).bind further = some a ∧
      (lands i).bind further = some b := by
  obtain ⟨aFace, bFace, aFound, bFound, _⟩ := reroutes.grown.regular.joinable member
  rcases Nat.lt_or_ge a.index graph.pins.size with aOld | aNew
  · exact exists_origin rewired reroutes old aOld member apart
  · have bOld : b.index < graph.pins.size := by
      apply Nat.lt_of_not_le
      intro bNew
      exact apart ⟨target.node, made_of_new rewired reroutes aFound aNew,
        made_of_new rewired reroutes bFound bNew⟩
    obtain ⟨o, i, linked, oLands, iLands⟩ := exists_origin rewired reroutes old bOld
      (reroutes.grown.regular.mem_links_comm.mp member) fun together => apart together.symm
    exact ⟨i, o, rewired.inputRegular.mem_links_comm.mp linked, iLands, oLands⟩

/-- Of two linked pins the evaluator has one at most, and the other stays. -/
private theorem links_land (rewired : Rewired input graph done lands)
    (reroutes : target.Reroutes env graph later further) (fresh : target.node ∉ done)
    {a b first second : PinId} (member : b ∈ graph.links a)
    (apart : ¬ MadeTogether input graph a b) (firstLands : further a = some first)
    (secondLands : further b = some second) :
    second ∈ later.links first ∧ ¬ MadeTogether input later first second := by
  by_cases owned : graph.Owns target.node a
  · have foreign := rewired.regular.not_owns_of_mem_links member owned
    have stays := reroutes.stays foreign
    rw [secondLands] at stays
    cases stays
    obtain ⟨back, apartBack⟩ := link_lands rewired reroutes fresh
      (rewired.regular.mem_links_comm.mp member) (fun together => apart together.symm) foreign
      firstLands
    exact ⟨reroutes.grown.regular.mem_links_comm.mp back,
      fun together => apartBack together.symm⟩
  · have stays := reroutes.stays owned
    rw [firstLands] at stays
    cases stays
    exact link_lands rewired reroutes fresh member apart owned secondLands

theorem Rewired.expand (rewired : Rewired input graph done lands)
    (reroutes : target.Reroutes env graph later further)
    (old : target.node.index < input.nodes.size) (fresh : target.node ∉ done) :
    Rewired input later (target.node :: done) fun id => (lands id).bind further where
  inputRegular := rewired.inputRegular
  regular := reroutes.grown.regular
  extended := rewired.extended.trans reroutes.grown.extended
  node := by
    intro id data found new
    rcases Nat.lt_or_ge id.index graph.nodes.size with earlier | added
    · have live : graph.node? id = some graph.nodes[id.index] :=
        Array.getElem?_eq_getElem earlier
      obtain ⟨same, _, sameFound, spawnedBy, _⟩ := reroutes.grown.extended.node live
      rw [found] at sameFound
      cases sameFound
      obtain ⟨source, member, sourceSpawnedBy⟩ := rewired.node live new
      exact ⟨source, List.mem_cons_of_mem _ member, spawnedBy.trans sourceSpawnedBy⟩
    · exact ⟨target.node, by simp, reroutes.grown.node found added⟩
  pin := by
    intro id face found new
    rcases Nat.lt_or_ge id.index graph.pins.size with earlier | added
    · rw [reroutes.grown.extended.face earlier] at found
      exact rewired.pin found new
    · exact Nat.le_trans rewired.extended.nodeCount (reroutes.grown.pin found added)
  keeps := by
    intro id idOld absent
    rw [List.mem_cons, not_or] at absent
    rw [reroutes.grown.keeps (Nat.lt_of_lt_of_le idOld rewired.extended.nodeCount) absent.1]
    exact rewired.keeps idOld absent.2
  stays := by
    intro id foreign
    rw [rewired.stays fun node member => foreign node (List.mem_cons_of_mem _ member)]
    apply reroutes.stays
    rw [rewired.owns_iff old]
    exact foreign target.node (by simp)
  directed := by
    intro id dest face found landed
    obtain ⟨middle, first, second⟩ := Option.bind_eq_some_iff.mp landed
    obtain ⟨middleFace, middleFound, direction⟩ := rewired.directed found first
    by_cases owned : graph.Owns target.node middle
    · obtain ⟨ownedFace, ownedFound, owner⟩ := owned
      obtain ⟨pin, live, rfl, _⟩ := exists_pin?_of_face? ownedFound
      rw [middleFound] at ownedFound
      cases ownedFound
      obtain ⟨destFace, destFound, same⟩ := (reroutes.replaces live owner second).direction_eq
      exact ⟨destFace, destFound, same.trans direction⟩
    · rw [reroutes.stays owned] at second
      cases second
      exact ⟨middleFace, reroutes.grown.extended.face?_eq middleFound, direction⟩
  links := by
    intro a b
    constructor
    · rintro ⟨member, apart⟩
      exact exists_origins rewired reroutes old member apart
    · rintro ⟨o, i, linked, oLands, iLands⟩
      obtain ⟨a', aLands, aLanded⟩ := Option.bind_eq_some_iff.mp oLands
      obtain ⟨b', bLands, bLanded⟩ := Option.bind_eq_some_iff.mp iLands
      obtain ⟨member, apart⟩ := rewired.links.mpr ⟨o, i, linked, aLands, bLands⟩
      exact links_land rewired reroutes fresh member apart aLanded bLanded

end Rewired

end Graph

namespace Target

open RigLowering.Graph

variable {env : Environment} {target other : Target} {input before graph later : Graph}
  {done : List NodeId} {lands further : PinId → Option PinId}

/-- What has become of the pins of an evaluator that was expanded in the graph `before`. -/
def Replaced (env : Environment) (target : Target) (before graph : Graph)
    (lands : PinId → Option PinId) : Prop :=
  ∀ id pin, before.pin? id = some pin → pin.owner = target.node →
    (target.Counts env pin →
      ∃ dest, lands id = some dest ∧ target.Replaces env before graph pin dest) ∧
    (¬ target.Counts env pin → lands id = none)

theorem Reroutes.replaced (reroutes : target.Reroutes env graph later further)
    (stays : ∀ {id}, graph.Owns target.node id → lands id = some id) :
    target.Replaced env graph later fun id => (lands id).bind further := by
  intro id pin live owner
  simp only [stays ⟨_, face?_of_pin? live, owner⟩, Option.bind_some]
  constructor
  · intro counts
    obtain ⟨dest, landed⟩ :=
      Option.isSome_iff_exists.mp ((reroutes.counted live owner).mpr counts)
    exact ⟨dest, landed, reroutes.replaces live owner landed⟩
  · intro notCounted
    exact Option.not_isSome_iff_eq_none.mp (mt (reroutes.counted live owner).mp notCounted)

/-- What has been made for one evaluator is no matter to the expansion of another. -/
theorem Replaced.mono (replaced : target.Replaced env before graph lands)
    (extension : input.nodes.size ≤ before.nodes.size)
    (reroutes : other.Reroutes env graph later further)
    (old : other.node.index < input.nodes.size) :
    target.Replaced env before later fun id => (lands id).bind further := by
  have oldBefore := Nat.lt_of_lt_of_le old extension
  have kept {id : PinId} (added : Added before graph id) : further id = some id :=
    reroutes.stays (added.not_owns oldBefore)
  intro id pin live owner
  obtain ⟨counted, notCounted⟩ := replaced id pin live owner
  constructor
  · intro counts
    obtain ⟨dest, landed, replaces⟩ := counted counts
    refine ⟨dest, ?_, replaces.mono reroutes.grown.extended ?_⟩
    · simp only [landed, Option.bind_some]
      exact kept replaces.added
    · intro id far feeds added member
      obtain ⟨face, found⟩ := face?_isSome_of_mem_links member
      exact (reroutes.links (lt_size_of_face? found)).mpr
        ⟨feeds.added.not_owns oldBefore, far, member, kept added⟩
  · intro absent
    simp only [notCounted absent, Option.bind_none]

theorem Replaced.of_links_eq (replaced : target.Replaced env before graph lands)
    (frame : graph.SameFrame later) (links : ∀ id, later.links id = graph.links id) :
    target.Replaced env before later lands := by
  intro id pin live owner
  obtain ⟨counted, notCounted⟩ := replaced id pin live owner
  refine ⟨?_, notCounted⟩
  intro counts
  obtain ⟨dest, landed, replaces⟩ := counted counts
  exact ⟨dest, landed, replaces.mono frame.extended fun _ _ member => links _ ▸ member⟩

end Target

namespace Graph

theorem commit_sameFrame (graph : Graph) : graph.SameFrame graph.commit :=
  ⟨rfl, rfl, fun _ => rfl, fun _ => rfl⟩

theorem checkpoint_sameFrame (graph : Graph) : graph.SameFrame graph.checkpoint :=
  ⟨rfl, rfl, fun _ => rfl, fun _ => rfl⟩

end Graph

namespace Environment

open RigLowering.Graph

variable {env : Environment} {start : PassState} {composites : List NodeId}

/-- In its pass over the composites `env` comes to the node, and expanding the node takes the
state from `before` to `after`. -/
structure Expands (env : Environment) (start : PassState) (composites : List NodeId)
    (node : NodeId) (before after : PassState) : Prop where
  reached : ∃ done rest state tally, composites = done ++ node :: rest ∧
    done.foldlM env.compileNode (start, .zero) = .ok (state, tally) ∧ before = state.checkpoint
  expanded : ∃ index event,
    (env.expandNode node).run before = (.ok (.expanded index event), after)

/-- No composite is expanded twice. -/
theorem Expands.before_eq {node : NodeId} {before after state : PassState} {tally : Tally}
    {done rest : List NodeId} (expands : env.Expands start composites node before after)
    (nodup : composites.Nodup) (split : composites = done ++ node :: rest)
    (ran : done.foldlM env.compileNode (start, .zero) = .ok (state, tally)) :
    before = state.checkpoint := by
  obtain ⟨⟨otherDone, otherRest, other, otherTally, otherSplit, otherRan, rfl⟩, _⟩ := expands
  rw [split] at nodup otherSplit
  obtain ⟨_, nodupRest, apart⟩ := List.nodup_append.mp nodup
  have notDone : node ∉ done := fun member => apart node member node (by simp) rfl
  obtain ⟨rfl, _⟩ := (List.append_cons_inj_of_notMem notDone (List.nodup_cons.mp nodupRest).1).mp
    otherSplit
  rw [ran] at otherRan
  cases otherRan
  rfl

/-- A composite that is not expanded leaves the graph as it was. -/
theorem compileNode_cases {progress next : PassState × Tally} {node : NodeId}
    (ran : env.compileNode progress node = .ok next) :
    (∃ index event after, (env.expandNode node).run progress.1.checkpoint =
        (.ok (.expanded index event), after) ∧ next.1.graph = after.graph.commit) ∨
      (¬ ∃ index event after, (env.expandNode node).run progress.1.checkpoint =
        (.ok (.expanded index event), after)) ∧ next.1.graph = progress.1.graph.commit := by
  unfold Pass.run
  rcases compileNode_eq_ok ran with ⟨outcome, after, run, rfl⟩ | ⟨error, after, run, _, rfl⟩
  · rw [run]
    rcases yields_expandNode run with ⟨reason, rfl, rfl, _⟩ | ⟨target, _, expanding⟩
    · refine .inr ⟨?_, rfl⟩
      rintro ⟨_, _, _, expanded⟩
      cases expanded
    · obtain ⟨index, event, rfl⟩ := Target.yields_expand_outcome expanding
      exact .inl ⟨index, event, after, rfl, rfl⟩
  · rw [run]
    refine .inr ⟨?_, rfl⟩
    rintro ⟨_, _, _, expanded⟩
    cases expanded

/-- How far the pass over the composites has come, and what it has made of `input`. -/
structure Progresses (env : Environment) (start : PassState) (composites : List NodeId)
    (input : Graph) (done expanded : List NodeId) (graph : Graph)
    (lands : PinId → Option PinId) : Prop where
  rewired : Rewired input graph expanded lands
  expanded_iff : ∀ {node}, node ∈ expanded ↔
    node ∈ done ∧ ∃ before after, env.Expands start composites node before after
  replaced : ∀ {node before after}, node ∈ done →
    env.Expands start composites node before after → input.Extends before.graph ∧
      ∃ target, env.target true input node = .ok (.inr target) ∧
        target.Replaced env before.graph graph lands

section Progresses

variable {input : Graph} {done rest expanded : List NodeId} {node : NodeId}
  {lands : PinId → Option PinId} {progress next : PassState × Tally}

theorem Progresses.begin {registry : RigRegistry} {runtime : RigRuntime} {options : PassOptions}
    {graph : Graph} (regular : graph.Regular) (composites : List NodeId) :
    Progresses ⟨registry, runtime⟩ (.start registry options graph) composites graph [] []
      (PassState.start registry options graph).graph some where
  rewired := .start regular ⟨rfl, rfl, fun _ => rfl, fun _ => rfl⟩ fun _ => rfl
  expanded_iff := by simp
  replaced := fun member => (nomatch member)

private theorem Progresses.skip (nodup : composites.Nodup)
    (split : composites = done ++ node :: rest)
    (reached : done.foldlM env.compileNode (start, .zero) = .ok progress)
    (progresses : env.Progresses start composites input done expanded progress.1.graph lands)
    (unexpanded : ¬ ∃ index event after, (env.expandNode node).run progress.1.checkpoint =
      (.ok (.expanded index event), after)) (same : next.1.graph = progress.1.graph.commit) :
    env.Progresses start composites input (done ++ [node]) expanded next.1.graph lands := by
  have impossible {before after : PassState} :
      ¬ env.Expands start composites node before after := by
    intro expands
    obtain rfl := expands.before_eq nodup split reached
    obtain ⟨index, event, ran⟩ := expands.expanded
    exact unexpanded ⟨index, event, after, ran⟩
  have frame := progress.1.graph.commit_sameFrame
  rw [same]
  refine ⟨progresses.rewired.of_links_eq frame fun _ => rfl, ?_, ?_⟩
  · intro other
    rw [progresses.expanded_iff, List.mem_append, List.mem_singleton]
    constructor
    · rintro ⟨member, expands⟩
      exact ⟨.inl member, expands⟩
    · rintro ⟨member | rfl, before, after, expands⟩
      · exact ⟨member, before, after, expands⟩
      · exact (impossible expands).elim
  · intro other before after member expands
    rcases List.mem_append.mp member with earlier | last
    · obtain ⟨extension, target, found, replaced⟩ := progresses.replaced earlier expands
      exact ⟨extension, target, found, replaced.of_links_eq frame fun _ => rfl⟩
    · obtain rfl := List.mem_singleton.mp last
      exact (impossible expands).elim

private theorem Progresses.expand (nodup : composites.Nodup)
    (split : composites = done ++ node :: rest) (old : node.index < input.nodes.size)
    (reached : done.foldlM env.compileNode (start, .zero) = .ok progress)
    (progresses : env.Progresses start composites input done expanded progress.1.graph lands)
    {index : UInt32} {event : Option NodeId} {after : PassState}
    (ran : (env.expandNode node).run progress.1.checkpoint =
      (.ok (.expanded index event), after)) (same : next.1.graph = after.graph.commit) :
    ∃ further, env.Progresses start composites input (done ++ [node]) (node :: expanded)
      next.1.graph further := by
  have opened := progress.1.graph.checkpoint_sameFrame
  have closed := after.graph.commit_sameFrame
  have rewired : Rewired input progress.1.checkpoint.graph expanded lands :=
    progresses.rewired.of_links_eq opened fun _ => rfl
  obtain ⟨target, further, found, rfl, reroutes⟩ := yields_expanded rewired.regular ran
  have expands : env.Expands start composites target.node progress.1.checkpoint after :=
    ⟨⟨done, rest, progress.1, progress.2, split, reached, rfl⟩, index, event, ran⟩
  have notDone : target.node ∉ done := by
    rw [split] at nodup
    intro member
    exact (List.nodup_append.mp nodup).2.2 _ member _ (by simp) rfl
  have fresh : target.node ∉ expanded := fun member =>
    notDone (progresses.expanded_iff.mp member).1
  rw [same]
  refine ⟨_, (rewired.expand reroutes old fresh).of_links_eq closed fun _ => rfl, ?_, ?_⟩
  · intro other
    rw [List.mem_cons, progresses.expanded_iff, List.mem_append, List.mem_singleton]
    constructor
    · rintro (rfl | ⟨member, otherExpands⟩)
      · exact ⟨.inr rfl, _, _, expands⟩
      · exact ⟨.inl member, otherExpands⟩
    · rintro ⟨member | rfl, otherExpands⟩
      · exact .inr ⟨member, otherExpands⟩
      · exact .inl rfl
  · intro other before otherAfter member otherExpands
    rcases List.mem_append.mp member with earlier | last
    · obtain ⟨extension, otherTarget, otherFound, replaced⟩ :=
        progresses.replaced earlier otherExpands
      refine ⟨extension, otherTarget, otherFound, ?_⟩
      have kept := (replaced.of_links_eq opened fun _ => rfl).mono extension.nodeCount reroutes old
      exact kept.of_links_eq closed fun _ => rfl
    · obtain rfl := List.mem_singleton.mp last
      obtain rfl := otherExpands.before_eq nodup split reached
      refine ⟨rewired.extended, target, ?_, ?_⟩
      · rw [(target_eq_inr found).1, target_congr (rewired.keeps old fresh)] at found
        exact found
      · refine (reroutes.replaced ?_).of_links_eq closed fun _ => rfl
        intro id owned
        apply rewired.stays
        intro source sourceMember sourceOwns
        obtain ⟨face, faceFound, owner⟩ := (rewired.owns_iff old).mp owned
        obtain ⟨sourceFace, sourceFound, sourceOwner⟩ := sourceOwns
        rw [faceFound] at sourceFound
        cases sourceFound
        exact fresh (owner ▸ sourceOwner ▸ sourceMember)

/-- Each composite in its turn is expanded, or leaves the graph as it was. -/
theorem progresses_foldlM (nodup : composites.Nodup)
    (old : ∀ node ∈ composites, node.index < input.nodes.size)
    (split : composites = done ++ rest)
    (reached : done.foldlM env.compileNode (start, .zero) = .ok progress)
    (progresses : env.Progresses start composites input done expanded progress.1.graph lands)
    (ran : rest.foldlM env.compileNode progress = .ok next) :
    ∃ expanded lands,
      env.Progresses start composites input composites expanded next.1.graph lands := by
  induction rest generalizing done expanded lands progress with
  | nil =>
      cases ran
      rw [List.append_nil] at split
      subst split
      exact ⟨expanded, lands, progresses⟩
  | cons node rest ih =>
      rw [List.foldlM_cons] at ran
      obtain ⟨middle, step, others⟩ := bind_eq_ok_iff.mp ran
      have onward : composites = (done ++ [node]) ++ rest := by simp [split]
      have reachedNext : (done ++ [node]).foldlM env.compileNode (start, .zero) = .ok middle := by
        rw [List.foldlM_append]
        refine bind_eq_ok_iff.mpr ⟨progress, reached, ?_⟩
        exact bind_eq_ok_iff.mpr ⟨middle, step, rfl⟩
      rcases compileNode_cases step with ⟨_, _, _, expands, same⟩ | ⟨unexpanded, same⟩
      · obtain ⟨further, stepped⟩ := Progresses.expand nodup split
          (old node (by simp [split])) reached progresses expands same
        exact ih onward reachedNext stepped others
      · exact ih onward reachedNext
          (Progresses.skip nodup split reached progresses unexpanded same) others

end Progresses

end Environment

namespace Graph

/-- The output is linked to the input. -/
def Linked (graph : Graph) (output input : PinId) : Prop :=
  ∃ pin, graph.pin? output = some pin ∧ pin.direction = .output ∧ input ∈ pin.links

theorem linked_iff {graph : Graph} {output input : PinId} :
    graph.Linked output input ↔
      (∃ face, graph.face? output = some face ∧ face.direction = .output) ∧
        input ∈ graph.links output := by
  constructor
  · rintro ⟨pin, live, direction, member⟩
    exact ⟨⟨pin.face, face?_of_pin? live, direction⟩, links_of_pin? live ▸ member⟩
  · rintro ⟨⟨face, found, direction⟩, member⟩
    obtain ⟨pin, live, rfl, same⟩ := exists_pin?_of_face? found
    exact ⟨pin, live, direction, same ▸ member⟩

/-- Compiling the graph comes to the node, and expanding it takes the state from `before` to
`after`. -/
def Expands (graph : Graph) (registry : RigRegistry) (runtime : RigRuntime)
    (options : PassOptions) (node : NodeId) (before after : PassState) : Prop :=
  Environment.Expands ⟨registry, runtime⟩ (.start registry options graph) graph.composites node
    before after

theorem Sound.mem_composites_lt {graph : Graph} (sound : graph.Sound) {id : NodeId}
    (member : id ∈ graph.composites) : id.index < graph.nodes.size := by
  obtain ⟨node, nodeMember, rfl⟩ := List.mem_map.mp member
  obtain ⟨id, found⟩ := mem_nodes_iff.mp (List.mem_filter.mp nodeMember).1
  rw [sound.nodeId found]
  exact lt_size_of_node? found

theorem Sound.composites_nodup {graph : Graph} (sound : graph.Sound) :
    graph.composites.Nodup := by
  apply List.Pairwise.map
  · exact fun _ _ different => different
  · apply List.Pairwise.filter
    rw [List.pairwise_iff_getElem]
    intro first second firstBound secondBound before same
    have located {index : Nat} (bound : index < graph.nodes.toList.length) :
        (graph.nodes.toList[index]).id = ⟨index⟩ := by
      apply sound.nodeId
      simp [node?]
    rw [located firstBound, located secondBound] at same
    cases same
    exact Nat.lt_irrefl _ before

/-- A pass comes to its end just where both audits pass, the classes and the runtime share a base,
and no expansion ends it. -/
theorem compile_eq_ok_iff {graph : Graph} {registry : RigRegistry} {runtime : RigRuntime}
    {options : PassOptions} {compiled : CompiledGraph} :
    graph.compile registry runtime options = .ok compiled ↔
      graph.auditIf options.audited = .ok () ∧ registry.base = runtime.base ∧
        ∃ final, graph.composites.foldlM (Environment.compileNode ⟨registry, runtime⟩)
            (.start registry options graph, .zero) = .ok final ∧
          final.1.graph.auditIf options.audited = .ok () ∧
          compiled =
            ⟨final.1.graph, final.1.log, final.1.stats graph.composites.length final.2⟩ := by
  constructor
  · intro ran
    obtain ⟨_, audited, afterAudit⟩ := bind_eq_ok_iff.mp ran
    obtain ⟨env, agreed, afterEnvironment⟩ := bind_eq_ok_iff.mp afterAudit
    obtain ⟨final, folded, finishing⟩ := bind_eq_ok_iff.mp afterEnvironment
    obtain ⟨_, auditedAgain, returned⟩ := bind_eq_ok_iff.mp finishing
    cases returned
    unfold Environment.of at agreed
    split at agreed
    · next same =>
        cases agreed
        exact ⟨audited, same, final, folded, auditedAgain, rfl⟩
    · cases agreed
  · rintro ⟨audited, same, final, folded, auditedAgain, rfl⟩
    exact bind_eq_ok_iff.mpr ⟨(), audited, bind_eq_ok_iff.mpr ⟨⟨registry, runtime⟩, if_pos same,
      bind_eq_ok_iff.mpr ⟨final, folded, bind_eq_ok_iff.mpr ⟨(), auditedAgain, rfl⟩⟩⟩⟩

/-- What a pass hands back is what it has come to after the last composite. -/
theorem compile_eq_ok {graph : Graph} {registry : RigRegistry} {runtime : RigRuntime}
    {options : PassOptions} {compiled : CompiledGraph}
    (ran : graph.compile registry runtime options = .ok compiled) :
    ∃ final, graph.composites.foldlM (Environment.compileNode ⟨registry, runtime⟩)
        (.start registry options graph, .zero) = .ok final ∧
      compiled = ⟨final.1.graph, final.1.log, final.1.stats graph.composites.length final.2⟩ := by
  obtain ⟨_, _, final, folded, _, same⟩ := compile_eq_ok_iff.mp ran
  exact ⟨final, folded, same⟩

/-- What compiling a well-formed graph makes of its links.  A pin of an evaluator that the pass
has expanded lands where it was replaced if it counted when its turn came, and nowhere if it did
not; every other pin, also one of an evaluator that was skipped or has failed, stays.  The links of
the compiled graph are those of the graph both of whose ends have landed, and besides them links
within what was made for one evaluator. -/
theorem compile_reroutes_links {graph : Graph} {registry : RigRegistry} {runtime : RigRuntime}
    {options : PassOptions} {compiled : CompiledGraph} (wellFormed : graph.WellFormed)
    (ran : graph.compile registry runtime options = .ok compiled) :
    ∃ lands : PinId → Option PinId,
      (∀ pin ∈ graph.livePins,
        (¬ ∃ before after, graph.Expands registry runtime options pin.owner before after) →
          lands pin.id = some pin.id) ∧
      (∀ pin ∈ graph.livePins, ∀ before after,
        graph.Expands registry runtime options pin.owner before after →
          ∃ target current,
            (⟨registry, runtime⟩ : Environment).target true graph pin.owner =
              .ok (.inr target) ∧
            before.graph.pin? pin.id = some current ∧ current.face = pin.face ∧
            (target.Counts ⟨registry, runtime⟩ current → ∃ dest, lands pin.id = some dest ∧
              target.Replaces ⟨registry, runtime⟩ before.graph compiled.graph current dest) ∧
            (¬ target.Counts ⟨registry, runtime⟩ current → lands pin.id = none)) ∧
      (∀ output input, compiled.graph.Linked output input ∧
          ¬ MadeTogether graph compiled.graph output input ↔
        ∃ origin far, graph.Linked origin far ∧ lands origin = some output ∧
          lands far = some input) ∧
      compiled.graph.WellFormed := by
  have regular := wellFormed_iff_regular.mp wellFormed
  obtain ⟨final, folded, rfl⟩ := compile_eq_ok ran
  obtain ⟨expanded, lands, progresses⟩ := Environment.progresses_foldlM
    regular.composites_nodup (fun _ => regular.mem_composites_lt) rfl rfl (.begin regular _) folded
  refine ⟨lands, ?_, ?_, ?_, wellFormed_iff_regular.mpr progresses.rewired.regular⟩
  · intro pin member unexpanded
    apply progresses.rewired.stays
    intro node nodeMember owned
    obtain rfl := (owns_iff_of_pin? (regular.pin?_of_mem_livePins member)).mp owned
    exact unexpanded (progresses.expanded_iff.mp nodeMember).2
  · intro pin member before after expands
    have composite : pin.owner ∈ graph.composites := by
      obtain ⟨done, rest, _, _, split, _⟩ := expands.reached
      simp [split]
    obtain ⟨extension, target, found, replaced⟩ := progresses.replaced composite expands
    obtain ⟨current, live, faces, _⟩ :=
      exists_pin?_of_face?
        (extension.face?_eq (face?_of_pin? (regular.pin?_of_mem_livePins member)))
    have targetNode : target.node = pin.owner := by
      obtain ⟨_, _, _, _, _, _, _, _, rfl⟩ := Environment.target_eq_inr found
      rfl
    refine ⟨target, current, found, live, faces, replaced pin.id current live ?_⟩
    exact (congrArg PinFace.owner faces).trans targetNode.symm
  · intro output input
    constructor
    · rintro ⟨linked, apart⟩
      obtain ⟨⟨face, found, direction⟩, member⟩ := linked_iff.mp linked
      obtain ⟨origin, far, originLinked, originLands, farLands⟩ :=
        progresses.rewired.links.mp ⟨member, apart⟩
      obtain ⟨originFace, originFound⟩ := face?_isSome_of_mem_links originLinked
      obtain ⟨_, landed, directed⟩ := progresses.rewired.directed originFound originLands
      rw [found] at landed
      cases landed
      exact ⟨origin, far,
        linked_iff.mpr ⟨⟨originFace, originFound, directed.symm.trans direction⟩, originLinked⟩,
        originLands, farLands⟩
    · rintro ⟨origin, far, linked, originLands, farLands⟩
      obtain ⟨⟨face, found, direction⟩, member⟩ := linked_iff.mp linked
      obtain ⟨outputFace, outputFound, directed⟩ := progresses.rewired.directed found originLands
      obtain ⟨outputLinked, apart⟩ :=
        progresses.rewired.links.mpr ⟨origin, far, member, originLands, farLands⟩
      exact ⟨linked_iff.mpr ⟨⟨outputFace, outputFound, directed.trans direction⟩, outputLinked⟩,
        apart⟩

end Graph

namespace CrossedLegs

open RigLowering.Graph

theorem compiles :
    ∃ compiled, graph.compile registry (.standard "Rig") .standard = .ok compiled :=
  exists_eq_ok (by decide +kernel)

/-- The links between the two legs come to join what was made for the one with what was made for
the other. -/
theorem compile_reroutes_crossing :
    ∃ (compiled : CompiledGraph) (lands : PinId → Option PinId),
      graph.compile registry (.standard "Rig") .standard = .ok compiled ∧
      (∀ output input, compiled.graph.Linked output input ∧
          ¬ MadeTogether graph compiled.graph output input ↔
        ∃ origin far, graph.Linked origin far ∧ lands origin = some output ∧
          lands far = some input) ∧
      compiled.graph.WellFormed := by
  obtain ⟨compiled, ran⟩ := compiles
  obtain ⟨lands, _, _, links, compiledWellFormed⟩ := compile_reroutes_links wellFormed ran
  exact ⟨compiled, lands, ran, links, compiledWellFormed⟩

end CrossedLegs

end RigLowering
