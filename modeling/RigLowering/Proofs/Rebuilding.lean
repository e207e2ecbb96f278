import RigLowering.Proofs.PinLaying

namespace RigLowering

namespace Graph

theorem evaluates_iff {graph : Graph} {node : NodeId} {settings : EvaluatorSettings} :
    graph.Evaluates node settings ↔
      ((graph.node? node).map (·.kind)).bind NodeKind.settings? = some settings := by
  simp only [Evaluates, Option.bind_eq_some_iff, Option.map_eq_some_iff]
  constructor
  · rintro ⟨data, found, read⟩
    exact ⟨data.kind, ⟨data, found, rfl⟩, read⟩
  · rintro ⟨_, ⟨data, found, rfl⟩, read⟩
    exact ⟨data, found, read⟩

end Graph

namespace Edit

open RigLowering.Graph

variable {registry : RigRegistry} {base graph : Graph} {node other : NodeId} {data : Node}

theorem removePin_keeps_kinds {kinds : NodeId → Option NodeKind} (id : PinId) :
    Keeps (fun graph => graph.Sound ∧ ∀ node, (graph.node? node).map (·.kind) = kinds node)
      (removePin id) := by
  rintro graph ⟨sound, same⟩
  rcases removePin_cases sound id with ⟨_, _, failed⟩ | ⟨after, done, removed⟩
  · rw [failed]
    exact ⟨sound, same⟩
  · rw [done]
    refine ⟨sound.removed removed, fun node => ?_⟩
    rw [removed.node, Option.map_map]
    exact same node

theorem takePins_keeps_regular (ids : List PinId) : Keeps Regular (takePins ids) :=
  Keeps.mapM (fun id => (keeps_query _).bind fun _ => (removePin_keeps_regular id).bind fun _ =>
    keeps_pure _) _

/-- A node loses all its pins, and only these are lost.  Where they led to is still there. -/
theorem takePins_effect (regular : graph.Regular) (found : graph.node? node = some data) :
    ∃ old after, Yields (takePins data.pins) graph old after ∧ after.Regular ∧
      (after.node? node).map (·.kind) = some data.kind ∧ (∀ id, ¬ after.Owns node id) ∧
      (∀ other, node ≠ other → Unharmed other graph after) ∧
      ∀ pin ∈ old, ∀ far ∈ pin.links, ∃ face, after.face? far = some face ∧
        node ≠ face.owner := by
  have listed {id : PinId} (member : id ∈ data.pins) : graph.Owns node id :=
    regular.listed found member
  obtain ⟨old, after, taken, cleared, links⟩ :=
    takePins_apply regular.toSound (regular.pinsNodup found) fun id member =>
      (listed member).imp fun _ => And.left
  have kindsKept : Keeps (fun later => later.Sound ∧
      ∀ other, (later.node? other).map (·.kind) = (graph.node? other).map (·.kind))
        (takePins data.pins) :=
    Keeps.mapM (fun id => (keeps_query _).bind fun _ => (removePin_keeps_kinds id).bind fun _ =>
      keeps_pure _) _
  have foreign {id : PinId} {face : PinFace} (faceFound : graph.face? id = some face)
      (owner : face.owner ≠ node) : after.face? id = some face := by
    rw [cleared.face, if_neg fun member =>
      owner ((owns_iff_of_face? faceFound).mp (listed member))]
    exact faceFound
  refine ⟨old, after, taken, (takePins_keeps_regular _).holds_after taken regular, ?_, ?_, ?_, ?_⟩
  · rw [(kindsKept.holds_after taken ⟨regular.toSound, fun _ => rfl⟩).2, found]
    rfl
  · rintro id ⟨face, left, owner⟩
    rw [cleared.face] at left
    split at left
    · cases left
    · next unlisted => exact unlisted ((regular.mem_pins_iff found).mpr ⟨face, left, owner⟩)
  · intro other different
    refine ⟨cleared.node?_eq regular.toSound fun id member owns => ?_, fun faceFound owner => ?_⟩
    · exact different ((listed member).unique owns)
    · exact foreign faceFound fun own => different (own.symm.trans owner)
  · intro pin member far linked
    obtain ⟨id, idMember, before⟩ := links pin member far linked
    obtain ⟨face, faceFound, owner⟩ := listed idMember
    obtain ⟨farFace, farFound, _, _, apart⟩ := regular.linked faceFound before
    have away : farFace.owner ≠ node := fun own => apart (own.trans owner.symm)
    exact ⟨farFace, foreign farFound away, away.symm⟩

theorem layEvaluatorPins_heeds (different : other ≠ node) :
    Keeps (Heeds node base) (layEvaluatorPins registry other) :=
  (keeps_query _).bind fun _ => layPins_heeds different _

theorem restorePin_heeds (other : NodeId) (old : Pin) :
    Keeps (Heeds node base) (restorePin other old) :=
  keeps_restorePin link_heeds changeLiterals_heeds other old

/-- To the other nodes nothing happens but that links are lost. -/
theorem rebuild_heeds (different : other ≠ node) :
    Keeps (Heeds node base) (rebuild registry other) := by
  intro graph heeds
  unfold rebuild
  rw [bind_apply, node_apply, Graph.node]
  cases found : graph.node? other with
  | none => exact heeds
  | some data =>
      obtain ⟨old, bare, taken, regular, _, _, unharmed, _⟩ :=
        takePins_effect heeds.toRegular found
      have bareHeeds : Heeds node base bare :=
        ⟨regular, heeds.toUnharmed.trans (unharmed node different)⟩
      have restKept : Keeps (Heeds node base) (do
          layEvaluatorPins registry other
          return total (← old.mapM (restorePin other))) :=
        (layEvaluatorPins_heeds different).bind fun _ =>
          (Keeps.mapM (restorePin_heeds other) _).bind fun _ => keeps_pure _
      simp only
      rw [bind_apply, taken]
      exact restKept bare bareHeeds

theorem layPins_keeps_evaluates {settings : EvaluatorSettings} (specs : List PinSpec) :
    Keeps (Evaluates · other settings) (layPins node specs) := by
  refine Keeps.forM (fun spec => Keeps.discard ?_) specs
  rw [layPin_eq]
  exact (addPin_keeps_evaluates _ _ _).bind fun _ => (changeLiterals_keeps_evaluates _ _ _).bind
    fun _ => keeps_pure _

theorem layEvaluatorPins_carries {settings : EvaluatorSettings} (built : registry.Built)
    (regular : graph.Regular) (evaluates : graph.Evaluates node settings)
    (bare : ∀ id, ¬ graph.Owns node id) :
    ∃ after, Yields (layEvaluatorPins registry node) graph () after ∧ after.Regular ∧
      after.Evaluates node settings ∧ after.Carries node (registry.evaluatorPins settings) := by
  obtain ⟨data, found, read⟩ := id evaluates
  have carries : graph.Carries node [] := by
    refine ⟨data, found, ?_⟩
    rw [List.eq_nil_iff_forall_not_mem.mpr fun id member => bare id (regular.listed found member)]
    exact .nil
  obtain ⟨⟨⟩, after, laid⟩ := (succeeds_layPins_iff carries .nil).mpr
    (RigRegistry.evaluatorPins_pairwise built settings)
  exact ⟨after, yields_bind_iff.mpr ⟨settings, graph,
    yields_query_iff.mpr ⟨rfl, settings_eq_ok_iff.mpr evaluates⟩, laid⟩,
    (Composed.layPins node _).keeps_regular.holds_after laid regular,
    (layPins_keeps_evaluates _).holds_after laid evaluates, layPins_carries carries laid⟩

/-- The graph differs from `base` in links and literals only. -/
abbrev Framed (base graph : Graph) : Prop :=
  base.SameFrame graph ∧ graph.Regular

theorem link_framed (a b : PinId) : Keeps (Framed base) (link a b) :=
  fun later kept => ⟨kept.1.trans (link_frame a b later), link_keeps_regular a b later kept.2⟩

theorem changeLiterals_framed (id : PinId) (value object : Pin → Option String) :
    Keeps (Framed base) (modifyPin id (·.setLiterals value object)) := by
  intro later kept
  rw [modifyPin_apply]
  cases later.pin? id with
  | none => exact kept
  | some pin =>
      exact ⟨kept.1.trans (later.changePin_sameFrame id fun _ => rfl),
        kept_regular.withLiterals id value object kept.2⟩

/-- A link to a pin that is there is restored or given up. -/
theorem relink_cases {new far : PinId} (live : ∃ face, graph.face? new = some face)
    (farLive : ∃ face, graph.face? far = some face) :
    (graph.Linkable new far ∧ ∃ after, Yields (link new far) graph () after ∧
      relink new far graph = (.ok 0, after)) ∨
    ¬ graph.Linkable new far ∧ relink new far graph = (.ok 1, graph) := by
  unfold relink
  rw [tryCatch_apply, bind_apply]
  rcases succeeds_link_or_refused live farLive with
    ⟨_, after, linked⟩ | ⟨error, refused, recoverable⟩
  · refine .inl ⟨succeeds_link_iff.mp ⟨_, after, linked⟩, after, linked, ?_⟩
    rw [show link new far graph = _ from linked]
    rfl
  · refine .inr ⟨fun linkable => ?_, ?_⟩
    · obtain ⟨_, _, linked⟩ := succeeds_link_iff.mpr linkable
      cases refused.symm.trans linked
    · rw [refused]
      simp only
      rw [if_pos recoverable]
      rfl

theorem succeeds_relink {new far : PinId} (live : ∃ face, graph.face? new = some face)
    (farLive : ∃ face, graph.face? far = some face) : Succeeds (relink new far) graph := by
  rcases relink_cases live farLive with ⟨_, after, _, done⟩ | ⟨_, refused⟩
  · exact ⟨0, after, done⟩
  · exact ⟨1, graph, refused⟩

theorem succeeds_restoreLiteral {new : PinId} (old : Pin)
    (live : ∃ face, graph.face? new = some face) : Succeeds (restoreLiteral new old) graph := by
  obtain ⟨face, found⟩ := live
  obtain ⟨pin, pinLive, _⟩ := exists_pin?_of_face? found
  refine succeeds_bind_iff.mpr ⟨pin, graph, yields_pin_iff.mpr ⟨rfl, pinLive⟩, ?_⟩
  split
  · exact ⟨(), _, yields_modifyPin_of_live found _⟩
  · exact succeeds_pure _

/-- Steps that each succeed on the same nodes and pins succeed one after another. -/
theorem succeeds_mapM_of_framed {α β : Type} {step : α → Edit β} {values : List α}
    (regular : graph.Regular) (framed : ∀ value, Keeps (Framed graph) (step value))
    (succeeds : ∀ value ∈ values, ∀ later, Framed graph later → Succeeds (step value) later) :
    Succeeds (values.mapM step) graph := by
  suffices ∀ later, Framed graph later → Succeeds (values.mapM step) later from
    this graph ⟨.refl graph, regular⟩
  induction values with
  | nil => exact fun _ _ => succeeds_pure _
  | cons value rest ih =>
      intro later kept
      obtain ⟨first, others⟩ := List.forall_mem_cons.mp succeeds
      rw [List.mapM_cons]
      refine (first later kept).bind fun _ middle yielded => ?_
      exact (ih others middle ((framed value).holds_after yielded kept)).bind fun _ _ _ =>
        succeeds_pure _

theorem succeeds_restorePin {old : Pin} (regular : graph.Regular)
    (found : graph.node? node = some data)
    (live : ∀ far ∈ old.links, ∃ face, graph.face? far = some face) :
    Succeeds (restorePin node old) graph := by
  obtain ⟨answer, searched⟩ : ∃ answer,
      graph.findPinAmong old.name (some old.direction) data.pins = .ok answer :=
    findPinAmong_of_live fun id member => (regular.listed found member).imp fun _ => And.left
  have outcome := findPinAmong_eq_ok searched
  refine succeeds_bind_iff.mpr ⟨answer, graph,
    yields_query_iff.mpr ⟨rfl, (findPin?_of_node? found _ _).trans searched⟩, ?_⟩
  cases answer with
  | none => exact succeeds_pure _
  | some new =>
      obtain ⟨_, face, newFound, _⟩ := outcome
      refine (succeeds_restoreLiteral old ⟨face, newFound⟩).bind fun _ middle restored => ?_
      obtain ⟨frame, middleRegular⟩ := (keeps_restoreLiteral changeLiterals_framed new
        old).holds_after restored ⟨.refl graph, regular⟩
      refine (succeeds_mapM_of_framed middleRegular (keeps_relink link_framed new)
        fun far member later kept => ?_).bind fun _ _ _ => succeeds_pure _
      obtain ⟨farFace, farFound⟩ := live far member
      have sameFaces := (frame.trans kept.1).face
      exact succeeds_relink ⟨face, (sameFaces new).trans newFound⟩
        ⟨farFace, (sameFaces far).trans farFound⟩

/-- Whatever pins an evaluator had, it gets those that its settings ask for, in their order. -/
theorem rebuild_carries {settings : EvaluatorSettings} (built : registry.Built)
    (regular : graph.Regular) (evaluates : graph.Evaluates node settings) :
    ∃ lost after, Yields (rebuild registry node) graph lost after ∧ after.Regular ∧
      after.Evaluates node settings ∧ after.Carries node (registry.evaluatorPins settings) := by
  obtain ⟨data, found, read⟩ := id evaluates
  obtain ⟨old, bare, taken, bareRegular, kind, unowned, _, live⟩ := takePins_effect regular found
  have bareEvaluates : bare.Evaluates node settings := by
    rw [evaluates_iff, kind]
    exact read
  obtain ⟨laid, done, laidRegular, laidEvaluates, carries⟩ :=
    layEvaluatorPins_carries built bareRegular bareEvaluates unowned
  obtain ⟨laidData, laidFound, _⟩ := id laidEvaluates
  have laidLive : ∀ pin ∈ old, ∀ far ∈ pin.links, ∃ face, laid.face? far = some face := by
    intro pin member far linked
    obtain ⟨face, farFound, away⟩ := live pin member far linked
    exact ⟨face, ((layEvaluatorPins_heeds away).holds_after done
      ⟨bareRegular, .refl face.owner bare⟩).face farFound rfl⟩
  have restoring (pin : Pin) : Keeps (Framed laid) (restorePin node pin) :=
    keeps_restorePin link_framed changeLiterals_framed node pin
  obtain ⟨counts, after, restored⟩ : Succeeds (old.mapM (restorePin node)) laid := by
    refine succeeds_mapM_of_framed laidRegular restoring fun pin member later kept => ?_
    refine succeeds_restorePin kept.2 ((kept.1.node node).trans laidFound) fun far linked => ?_
    obtain ⟨face, farFound⟩ := laidLive pin member far linked
    exact ⟨face, (kept.1.face far).trans farFound⟩
  obtain ⟨frame, afterRegular⟩ :=
    (Keeps.mapM restoring old).holds_after restored ⟨.refl laid, laidRegular⟩
  have unharmed : Unharmed node laid after :=
    ⟨frame.node node, fun faceFound _ => (frame.face _).trans faceFound⟩
  refine ⟨total counts, after, ?_, afterRegular, unharmed.evaluates_iff.mpr laidEvaluates,
    unharmed.carries carries⟩
  exact yields_bind_iff.mpr ⟨data, graph, yields_node_iff.mpr ⟨rfl, found⟩,
    yields_bind_iff.mpr ⟨old, bare, taken, yields_bind_iff.mpr ⟨(), laid, done,
      yields_bind_iff.mpr ⟨counts, after, restored, yields_pure_iff.mpr ⟨rfl, rfl⟩⟩⟩⟩⟩

/-- A node that is no evaluator is found to be none only when its pins are gone. -/
theorem rebuild_of_primitive (regular : graph.Regular) (primitive : graph.IsPrimitive node)
    (found : graph.node? node = some data) :
    rebuild registry node graph = (.error (.notComposite node), (takePins data.pins graph).2) ∧
      graph.Cleared (takePins data.pins graph).2 data.pins := by
  obtain ⟨old, bare, taken, cleared, _⟩ :=
    takePins_apply regular.toSound (regular.pinsNodup found) fun id member =>
      (regular.listed found member).imp fun _ => And.left
  have unset : data.kind.settings? = none :=
    Option.eq_none_iff_forall_ne_some.mpr fun settings read =>
      primitive settings ⟨data, found, read⟩
  have bareFound : bare.node? node = some (data.unlistPins data.pins) := by
    rw [cleared.node, found, Option.map_some]
  have refused : bare.settings node = .error (.notComposite node) := by
    unfold Graph.settings
    rw [node_eq_ok_iff.mpr bareFound]
    simp only [bind, Except.bind, Node.unlistPins, unset]
    rfl
  rw [taken]
  refine ⟨?_, cleared⟩
  unfold rebuild layEvaluatorPins
  rw [bind_apply, node_apply, node_eq_ok_iff.mpr found]
  simp only
  rw [bind_apply, taken]
  simp only
  rw [bind_apply, bind_apply, query_apply, refused]

/-- Where there is no evaluator to rebuild, none comes about. -/
theorem rebuild_keeps_primitive (regular : graph.Regular) (primitive : graph.IsPrimitive node) :
    (rebuild registry node graph).2.IsPrimitive node := by
  cases found : graph.node? node with
  | none =>
      unfold rebuild
      rw [bind_apply, node_apply, Graph.node, found]
      exact primitive
  | some data =>
      obtain ⟨failed, cleared⟩ := @rebuild_of_primitive registry _ _ _ regular primitive found
      rw [failed]
      intro settings evaluates
      rw [evaluates_iff, cleared.node, found] at evaluates
      exact primitive settings ⟨data, found, evaluates⟩

theorem resettle_heeds (different : other ≠ node)
    (change : EvaluatorSettings → EvaluatorSettings) :
    Keeps (Heeds node base) (do modifySettings other change; rebuild registry other) := by
  have settled : Keeps (Heeds node base) (modifySettings other change) := by
    refine (keeps_query _).bind fun _ => ?_
    intro graph heeds
    rcases changeSettings_cases other change graph with ⟨_, failed⟩ | changed
    · rw [failed]
      exact heeds
    · rw [changed]
      exact heeds.withSettings different change
  exact settled.bind fun _ => rebuild_heeds different

theorem resettle_carries {former : EvaluatorSettings} (built : registry.Built)
    (regular : graph.Regular) (evaluates : graph.Evaluates node former)
    (change : EvaluatorSettings → EvaluatorSettings) :
    ∃ lost after, Yields (do modifySettings node change; rebuild registry node) graph lost after ∧
      after.Evaluates node (change former) ∧
        after.Carries node (registry.evaluatorPins (change former)) := by
  obtain ⟨data, found, read⟩ := id evaluates
  have changed : (graph.changeNode node (·.mapSettings change)).Evaluates node (change former) := by
    refine ⟨data.mapSettings change, ?_, ?_⟩
    · rw [node?_changeNode, if_pos rfl, found]
      rfl
    · change (data.kind.mapSettings change).settings? = _
      rw [NodeKind.settings?_mapSettings, read]
      rfl
  have settled : Yields (modifySettings node change) graph ()
      (graph.changeNode node (·.mapSettings change)) := by
    refine yields_bind_iff.mpr
      ⟨former, graph, yields_query_iff.mpr ⟨rfl, settings_eq_ok_iff.mpr evaluates⟩, ?_⟩
    rw [Yields, modifyNode_apply, found]
  obtain ⟨lost, after, rebuilt, _, rest⟩ :=
    rebuild_carries built (regular.withSettings node change) changed
  exact ⟨lost, after, yields_bind_iff.mpr ⟨(), _, settled, rebuilt⟩, rest⟩

theorem resettle_of_primitive (primitive : graph.IsPrimitive node)
    (change : EvaluatorSettings → EvaluatorSettings) :
    ((do modifySettings node change; rebuild registry node : Edit Nat) graph).2 = graph := by
  unfold modifySettings
  rw [bind_apply, bind_apply, query_apply]
  cases read : graph.settings node with
  | error error => rfl
  | ok settings => exact (primitive settings (settings_eq_ok_iff.mp read)).elim

end Edit

end RigLowering
