import RigLowering.Pass.FieldAccess
import RigLowering.Proofs.Rerouting

namespace RigLowering

namespace Graph

/-- The pin by which a value comes to the field, or comes from it. -/
inductive ValuePort (before after : Graph) (source : NodeId) (owner : String) (field : Field)
    (id : PinId) : Prop
  | write (setter : NodeId) (direction : field.direction = .input)
      (kind : field.kind = .scalar ∨ field.kind = .struct)
      (spawned : Spawned before after source (.setField owner field.name) setter)
      (port : after.Port setter .input field.name id)
  | writeCopy (copy setter : NodeId) (copied value : PinId) (direction : field.direction = .input)
      (kind : field.kind = .array) (spawned : Spawned before after source .copy copy)
      (port : after.Port copy .input PinName.item id)
      (copiedPort : after.Port copy .output PinName.returnValue copied)
      (setterSpawned : Spawned before after source (.setField owner field.name) setter)
      (valuePort : after.Port setter .input field.name value) (linked : value ∈ after.links copied)
  | bind (binder : NodeId) (direction : field.direction = .input) (kind : field.kind = .delegate)
      (spawned : Spawned before after source (.bindField owner field.name) binder)
      (port : after.Port binder .input PinName.delegate id)
  | read (getter : NodeId) (direction : field.direction = .output) (kind : field.kind = .scalar)
      (spawned : Spawned before after source (.getField owner field.name) getter)
      (port : after.Port getter .output field.name id)
  | readCopy (getter copy : NodeId) (value item : PinId) (direction : field.direction = .output)
      (kind : field.kind = .struct ∨ field.kind = .array)
      (getterSpawned : Spawned before after source (.getField owner field.name) getter)
      (valuePort : after.Port getter .output field.name value)
      (spawned : Spawned before after source .copy copy)
      (itemPort : after.Port copy .input PinName.item item) (linked : item ∈ after.links value)
      (port : after.Port copy .output PinName.returnValue id)

/-- The result of casting what a call of the function returns. -/
inductive CastPort (before after : Graph) (source : NodeId) (function rigType : String)
    (id : PinId) : Prop
  | intro (call cast : NodeId) (returned object : PinId)
      (callSpawned : Spawned before after source (.call function true) call)
      (returnedPort : after.Port call .output PinName.returnValue returned)
      (castSpawned : Spawned before after source (.cast rigType true) cast)
      (objectPort : after.Port cast .input PinName.castSource object)
      (linked : object ∈ after.links returned)
      (port : after.Port cast .output (PinName.castResult rigType) id)

section Ports

variable {base graph later : Graph} {source : NodeId} {id : PinId}

theorem ValuePort.mono {owner : String} {field : Field}
    (valuePort : ValuePort base graph source owner field id) (extension : graph.Extends later)
    (retains : ∀ {id far}, Feeds base graph source id → Added base graph far →
      far ∈ graph.links id → far ∈ later.links id) :
    ValuePort base later source owner field id := by
  cases valuePort with
  | write setter direction kind spawned port =>
      exact .write setter direction kind (spawned.mono rfl extension) (port.mono extension)
  | writeCopy copy setter copied value direction kind spawned port copiedPort setterSpawned
      valuePort linked =>
      exact .writeCopy copy setter copied value direction kind (spawned.mono rfl extension)
        (port.mono extension) (copiedPort.mono extension) (setterSpawned.mono rfl extension)
        (valuePort.mono extension)
        (retains ⟨_, _, _, spawned, rfl, copiedPort⟩ (setterSpawned.port_added valuePort) linked)
  | bind binder direction kind spawned port =>
      exact .bind binder direction kind (spawned.mono rfl extension) (port.mono extension)
  | read getter direction kind spawned port =>
      exact .read getter direction kind (spawned.mono rfl extension) (port.mono extension)
  | readCopy getter copy value item direction kind getterSpawned valuePort spawned itemPort linked
      port =>
      exact .readCopy getter copy value item direction kind (getterSpawned.mono rfl extension)
        (valuePort.mono extension) (spawned.mono rfl extension) (itemPort.mono extension)
        (retains ⟨_, _, _, getterSpawned, rfl, valuePort⟩ (spawned.port_added itemPort) linked)
        (port.mono extension)

theorem CastPort.mono {function rigType : String}
    (castPort : CastPort base graph source function rigType id) (extension : graph.Extends later)
    (retains : ∀ {id far}, Feeds base graph source id → Added base graph far →
      far ∈ graph.links id → far ∈ later.links id) :
    CastPort base later source function rigType id := by
  obtain ⟨call, cast, returned, object, callSpawned, returnedPort, castSpawned, objectPort,
    linked, port⟩ := castPort
  exact ⟨call, cast, returned, object, callSpawned.mono rfl extension,
    returnedPort.mono extension, castSpawned.mono rfl extension, objectPort.mono extension,
    retains ⟨_, _, _, callSpawned, rfl, returnedPort⟩ (castSpawned.port_added objectPort) linked,
    port.mono extension⟩

theorem ValuePort.added {owner : String} {field : Field}
    (valuePort : ValuePort base graph source owner field id) : Added base graph id := by
  cases valuePort with
  | write _ _ _ spawned port => exact spawned.port_added port
  | writeCopy _ _ _ _ _ _ spawned port => exact spawned.port_added port
  | bind _ _ _ spawned port => exact spawned.port_added port
  | read _ _ _ spawned port => exact spawned.port_added port
  | readCopy _ _ _ _ _ _ _ _ spawned _ _ port => exact spawned.port_added port

theorem ValuePort.direction_eq {owner : String} {field : Field}
    (valuePort : ValuePort base graph source owner field id) :
    ∃ face, graph.face? id = some face ∧ face.direction = field.direction := by
  have directed {node : NodeId} {direction : PinDirection} {name : String}
      (port : graph.Port node direction name id) (same : field.direction = direction) :
      ∃ face, graph.face? id = some face ∧ face.direction = field.direction := by
    obtain ⟨face, found, _, directed, _⟩ := port
    exact ⟨face, found, directed.trans same.symm⟩
  cases valuePort with
  | write _ direction _ _ port => exact directed port direction
  | writeCopy _ _ _ _ direction _ _ port => exact directed port direction
  | bind _ direction _ _ port => exact directed port direction
  | read _ direction _ _ port => exact directed port direction
  | readCopy _ _ _ _ direction _ _ _ _ _ _ port => exact directed port direction

theorem CastPort.added {function rigType : String}
    (castPort : CastPort base graph source function rigType id) : Added base graph id := by
  obtain ⟨_, _, _, _, _, _, castSpawned, _, _, port⟩ := castPort
  exact castSpawned.port_added port

end Ports

end Graph

namespace Pass

open RigLowering.Graph

variable {base : Graph} {source : NodeId} {moved : PinId → PinId} {before after : PassState}

theorem yields_spawn_of_rerouting {kind : NodeKind} {pins : List PinSpec} {node : NodeId}
    (rerouting : Rerouting base source moved before.graph) (primitive : kind.settings? = none)
    (yielded : Yields (spawn kind pins source) before node after) :
    Undisturbed base source before.graph after.graph ∧
      Spawned base after.graph source kind node :=
  yields_spawn primitive rerouting.regular rerouting.extended yielded

theorem yields_link_of_rerouting {a b : PinId}
    (rerouting : Rerouting base source moved before.graph) (first : Added base before.graph a)
    (second : Added base before.graph b) (yielded : Yields (edit (.link a b)) before () after) :
    Undisturbed base source before.graph after.graph ∧ b ∈ after.graph.links a :=
  Edit.yields_link_added rerouting.regular rerouting.sound rerouting.extended first second
    (yields_edit yielded)

/-- The literals that go along are no matter to the links. -/
theorem yields_transferPin {origin dest : PinId} (regular : before.graph.Regular)
    (different : origin ≠ dest)
    (yielded : Yields (transferPin origin dest) before () after) :
    before.graph.SameFrame after.graph ∧ after.graph.Regular ∧
      (∃ face destFace, before.graph.face? origin = some face ∧
        before.graph.face? dest = some destFace ∧ destFace.direction = face.direction) ∧
      ∀ {id far}, far ∈ after.graph.links id ↔ id ≠ origin ∧ far ≠ origin ∧
        (far ∈ before.graph.links id ∨ id = dest ∧ far ∈ before.graph.links origin ∨
          far = dest ∧ id ∈ before.graph.links origin) := by
  obtain ⟨_, middle, transferred, reading⟩ := yields_bind_iff.mp (yields_edit yielded)
  obtain ⟨pin, _, read, literals⟩ := yields_bind_iff.mp reading
  obtain ⟨rfl, live⟩ := Edit.yields_pin_iff.mp read
  have middleRegular :=
    (Edit.Composed.transferLinks _ _).keeps_regular.holds_after transferred regular
  obtain ⟨frame, directions, links⟩ :=
    Edit.yields_transferLinks regular.toSound different transferred
  split at literals
  · have afterRegular :=
      (Edit.Composed.changeLiterals _ _ _).keeps_regular.holds_after literals middleRegular
    unfold Yields at literals
    rcases Edit.changeLiterals_cases dest _ _ _ with
      ⟨_, failed⟩ | ⟨_, changed, lastFrame, same⟩
    · exact (nomatch failed.symm.trans literals)
    · cases changed.symm.trans literals
      refine ⟨frame.trans lastFrame, afterRegular, directions, ?_⟩
      intro id far
      rw [same, links]
  · obtain ⟨_, same⟩ := yields_pure_iff.mp literals
    rw [same]
    exact ⟨frame, middleRegular, directions, links⟩

theorem yields_transferPin_of_rerouting {origin dest : PinId} {face : PinFace}
    (rerouting : Rerouting base source moved before.graph)
    (found : base.face? origin = some face) (owner : face.owner = source)
    (stays : moved origin = origin) (added : Added base before.graph dest)
    (yielded : Yields (transferPin origin dest) before () after) :
    Rerouting base source (redirect moved origin dest) after.graph ∧
      Grows base source before.graph after.graph := by
  have old := lt_size_of_face? found
  have different : origin ≠ dest := by
    rintro rfl
    exact Nat.not_lt_of_le (added.pinCount_le rerouting.sound rerouting.extended) old
  obtain ⟨frame, regular, ⟨originFace, destFace, originFound, destFound, direction⟩, links⟩ :=
    yields_transferPin rerouting.regular different yielded
  rw [rerouting.extended.face?_eq found] at originFound
  cases originFound
  obtain ⟨addedFace, addedFound, new⟩ := added
  rw [destFound] at addedFound
  cases addedFound
  exact ⟨rerouting.transfer found owner stays destFound new direction frame regular links,
    rerouting.transfer_retains old frame regular links⟩

/-- What follows one spawned node comes to follow another. -/
theorem yields_transferLinks_of_continues {exec dest : PinId}
    (rerouting : Rerouting base source moved before.graph) (stay : OutputsStay base moved)
    (continues : Continues base before.graph source exec) (added : Added base before.graph dest)
    (yielded : Yields (edit (.transferLinks exec dest)) before () after) :
    Undisturbed base source before.graph after.graph := by
  have transferred := yields_edit yielded
  have regular := (Edit.Composed.transferLinks _ _).keeps_regular.holds_after transferred
    rerouting.regular
  by_cases same : exec = dest
  · unfold Edit.transferLinks at transferred
    rw [if_pos same] at transferred
    obtain ⟨_, unchanged⟩ := yields_pure_iff.mp transferred
    rw [unchanged]
    exact .refl rerouting.regular
  · obtain ⟨frame, _, links⟩ :=
      Edit.yields_transferLinks rerouting.regular.toSound same transferred
    have execNew := continues.added.pinCount_le rerouting.sound rerouting.extended
    have destNew := added.pinCount_le rerouting.sound rerouting.extended
    refine ⟨.of_frame frame regular ?_, ?_⟩
    · intro id far feeds _ member
      refine links.mpr ⟨feeds.ne_of_continues continues, ?_, .inl member⟩
      rintro rfl
      obtain ⟨_, _, _, _, _, face, found, _, output, _⟩ := feeds
      obtain ⟨_, _, _, _, _, farFace, farFound, _, farOutput, _⟩ := continues
      obtain ⟨_, _, idFound, otherFound, directions, _⟩ := rerouting.regular.joinable member
      rw [found] at idFound
      rw [farFound] at otherFound
      cases idFound
      cases otherFound
      exact directions (farOutput.trans output.symm)
    · intro id far old
      have apart := rerouting.not_mem_links_of_continues stay continues old
      rw [links]
      constructor
      · rintro ⟨_, _, member | ⟨rfl, _⟩ | ⟨rfl, member⟩⟩
        · exact member
        · exact (Nat.not_lt_of_le destNew old).elim
        · exact (apart (rerouting.regular.mem_links_comm.mp member)).elim
      · intro member
        refine ⟨?_, ?_, .inl member⟩
        · rintro rfl
          exact Nat.not_lt_of_le execNew old
        · rintro rfl
          exact apart member

end Pass

namespace FieldAccess

open RigLowering.Graph

variable {base : Graph} {moved : PinId → PinId} {access : FieldAccess} {field : Field}
  {before after : PassState}

theorem yields_attachHandle {kind : NodeKind} {node : NodeId}
    (rerouting : Rerouting base access.source moved before.graph)
    (handle : Added base before.graph access.handle)
    (spawned : Spawned base before.graph access.source kind node)
    (yielded : Yields (access.attachHandle node) before () after) :
    Undisturbed base access.source before.graph after.graph := by
  obtain ⟨self, middle, found, linked⟩ := yields_bind_iff.mp yielded
  obtain ⟨same, port⟩ := Pass.yields_findPin rerouting.regular found
  have self := spawned.port_added port
  rw [← same] at rerouting handle self ⊢
  exact (Pass.yields_link_of_rerouting rerouting handle self linked).1

/-- Only what was spawned is put in order. -/
theorem yields_spliceExec {exec next : Option PinId} {kind : NodeKind} {node : NodeId}
    (rerouting : Rerouting base access.source moved before.graph) (stay : OutputsStay base moved)
    (continues : ∀ id, exec = some id → Continues base before.graph access.source id)
    (sequenced : kind.isSequenced) (spawned : Spawned base before.graph access.source kind node)
    (yielded : Yields (spliceExec exec node) before next after) :
    Undisturbed base access.source before.graph after.graph ∧
      ∃ id, next = some id ∧ Continues base after.graph access.source id := by
  obtain ⟨execute, first, foundExecute, afterExecute⟩ := yields_bind_iff.mp yielded
  obtain ⟨same, executePort⟩ := Pass.yields_findPin rerouting.regular foundExecute
  rw [← same] at rerouting continues spawned executePort ⊢
  obtain ⟨continuation, second, foundContinuation, afterContinuation⟩ :=
    yields_bind_iff.mp afterExecute
  obtain ⟨same, continuationPort⟩ := Pass.yields_findPin rerouting.regular foundContinuation
  rw [← same] at rerouting continues spawned executePort continuationPort ⊢
  have onward : Continues base second.graph access.source continuation :=
    ⟨kind, node, _, spawned, sequenced, continuationPort⟩
  cases exec with
  | none =>
      obtain ⟨rfl, rfl⟩ := yields_pure_iff.mp afterContinuation
      exact ⟨.refl rerouting.regular, continuation, rfl, onward⟩
  | some exec =>
      obtain ⟨_, third, transferred, afterTransfer⟩ := yields_bind_iff.mp afterContinuation
      obtain ⟨_, last, linked, returned⟩ := yields_bind_iff.mp afterTransfer
      obtain ⟨rfl, rfl⟩ := yields_pure_iff.mp returned
      have triggers := continues exec rfl
      have followed := Pass.yields_transferLinks_of_continues rerouting stay triggers onward.added
        transferred
      have joined := (Pass.yields_link_of_rerouting (rerouting.undisturbed followed)
        (triggers.added.mono followed.extended)
        ((spawned.port_added executePort).mono followed.extended) linked).1
      have undisturbed := followed.trans joined
      exact ⟨undisturbed, continuation, rfl, onward.mono undisturbed.extended⟩

/-- The external pin belongs to the evaluator that is expanded, and its links are where they
were. -/
structure Awaits (access : FieldAccess) (base : Graph) (moved : PinId → PinId) (before : Graph) :
    Prop where
  rerouting : Rerouting base access.source moved before
  handle : Added base before access.handle
  external : ∃ face, base.face? access.external = some face ∧ face.owner = access.source
  stays : moved access.external = access.external
  direct : access.isEventOutput = false

/-- The links of the external pin have come to the pin `dest` that was spawned for the field. -/
structure Delivers (access : FieldAccess) (field : Field) (base : Graph) (moved : PinId → PinId)
    (before after : Graph) (dest : PinId) : Prop where
  rerouting : Rerouting base access.source (redirect moved access.external dest) after
  grows : Grows base access.source before after
  port : ValuePort base after access.source access.owner field dest

theorem Awaits.yields_transferPin {dest : PinId} (awaits : access.Awaits base moved before.graph)
    (added : Added base before.graph dest)
    (yielded : Yields (Pass.transferPin access.external dest) before () after) :
    Rerouting base access.source (redirect moved access.external dest) after.graph ∧
      Grows base access.source before.graph after.graph := by
  obtain ⟨face, found, owner⟩ := awaits.external
  exact Pass.yields_transferPin_of_rerouting awaits.rerouting found owner awaits.stays added yielded

theorem Awaits.yields_routeValue {dest : PinId} (awaits : access.Awaits base moved before.graph)
    (added : Added base before.graph dest)
    (yielded : Yields (access.routeValue dest) before () after) :
    Rerouting base access.source (redirect moved access.external dest) after.graph ∧
      Grows base access.source before.graph after.graph := by
  unfold routeValue at yielded
  rw [if_neg (by simp [awaits.direct])] at yielded
  exact awaits.yields_transferPin added yielded

theorem Awaits.undisturbed {graph later : Graph} (awaits : access.Awaits base moved graph)
    (undisturbed : Undisturbed base access.source graph later) :
    access.Awaits base moved later where
  rerouting := awaits.rerouting.undisturbed undisturbed
  handle := awaits.handle.mono undisturbed.extended
  external := awaits.external
  stays := awaits.stays
  direct := awaits.direct

/-- What every write ends with. -/
theorem yields_sequence {next : Option PinId} {kind : NodeKind} {node : NodeId}
    (rerouting : Rerouting base access.source moved before.graph)
    (handle : Added base before.graph access.handle) (stay : OutputsStay base moved)
    (continues : ∀ id, access.exec = some id → Continues base before.graph access.source id)
    (sequenced : kind.isSequenced) (spawned : Spawned base before.graph access.source kind node)
    (yielded : Yields (do
      access.attachHandle node
      spliceExec access.exec node) before next after) :
    Undisturbed base access.source before.graph after.graph ∧
      ∃ id, next = some id ∧ Continues base after.graph access.source id := by
  obtain ⟨_, middle, attached, spliced⟩ := yields_bind_iff.mp yielded
  have undisturbed := yields_attachHandle rerouting handle spawned attached
  obtain ⟨ordered, onward⟩ := yields_spliceExec (rerouting.undisturbed undisturbed) stay
    (fun id given => (continues id given).mono undisturbed.extended) sequenced
    (spawned.mono (NodeKind.settings?_of_isSequenced sequenced) undisturbed.extended) spliced
  exact ⟨undisturbed.trans ordered, onward⟩

/-- A write by one node, of whatever kind. -/
theorem yields_writeBy {next : Option PinId} {kind : NodeKind} {pins : List PinSpec}
    {name : String} (awaits : access.Awaits base moved before.graph)
    (stay : ∀ dest, OutputsStay base (redirect moved access.external dest))
    (continues : ∀ id, access.exec = some id → Continues base before.graph access.source id)
    (sequenced : kind.isSequenced)
    (yielded : Yields (do
      let node ← Pass.spawn kind pins access.source
      let value ← Pass.findPin node name .input
      access.routeValue value
      access.attachHandle node
      spliceExec access.exec node) before next after) :
    ∃ node dest, Rerouting base access.source (redirect moved access.external dest) after.graph ∧
      Grows base access.source before.graph after.graph ∧
      Spawned base after.graph access.source kind node ∧ after.graph.Port node .input name dest ∧
      ∃ id, next = some id ∧ Continues base after.graph access.source id := by
  have primitive := NodeKind.settings?_of_isSequenced sequenced
  obtain ⟨node, first, spawning, afterSpawn⟩ := yields_bind_iff.mp yielded
  obtain ⟨opened, spawned⟩ := Pass.yields_spawn_of_rerouting awaits.rerouting primitive spawning
  have awaiting := awaits.undisturbed opened
  obtain ⟨value, second, found, afterFind⟩ := yields_bind_iff.mp afterSpawn
  obtain ⟨same, port⟩ := Pass.yields_findPin awaiting.rerouting.regular found
  rw [← same] at opened awaiting spawned port
  obtain ⟨_, third, routed, sequence⟩ := yields_bind_iff.mp afterFind
  obtain ⟨rerouting, grows⟩ := awaiting.yields_routeValue (spawned.port_added port) routed
  obtain ⟨ordered, onward⟩ := yields_sequence rerouting (awaiting.handle.mono grows.extended)
    (stay value) (fun id given => (continues id given).mono (opened.extended.trans grows.extended))
    sequenced (spawned.mono primitive grows.extended) sequence
  have extension := grows.extended.trans ordered.extended
  exact ⟨node, value, rerouting.undisturbed ordered,
    opened.toGrows.trans (grows.trans ordered.toGrows), spawned.mono primitive extension,
    port.mono extension, onward⟩

theorem yields_writeValue {next : Option PinId} (direction : field.direction = .input)
    (kind : field.kind = .scalar ∨ field.kind = .struct)
    (awaits : access.Awaits base moved before.graph)
    (stay : ∀ dest, OutputsStay base (redirect moved access.external dest))
    (continues : ∀ id, access.exec = some id → Continues base before.graph access.source id)
    (yielded : Yields (access.writeValue field) before next after) :
    ∃ dest, access.Delivers field base moved before.graph after.graph dest ∧
      ∃ id, next = some id ∧ Continues base after.graph access.source id := by
  obtain ⟨setter, dest, rerouting, grows, spawned, port, onward⟩ :=
    yields_writeBy awaits stay continues rfl yielded
  exact ⟨dest, ⟨rerouting, grows, .write setter direction kind spawned port⟩, onward⟩

theorem yields_writeDelegate {next : Option PinId} (direction : field.direction = .input)
    (kind : field.kind = .delegate) (awaits : access.Awaits base moved before.graph)
    (stay : ∀ dest, OutputsStay base (redirect moved access.external dest))
    (continues : ∀ id, access.exec = some id → Continues base before.graph access.source id)
    (yielded : Yields (access.writeDelegate field) before next after) :
    ∃ dest, access.Delivers field base moved before.graph after.graph dest ∧
      ∃ id, next = some id ∧ Continues base after.graph access.source id := by
  obtain ⟨binder, dest, rerouting, grows, spawned, port, onward⟩ :=
    yields_writeBy awaits stay continues rfl yielded
  exact ⟨dest, ⟨rerouting, grows, .bind binder direction kind spawned port⟩, onward⟩

theorem yields_writeCopy {next : Option PinId} (direction : field.direction = .input)
    (kind : field.kind = .array) (awaits : access.Awaits base moved before.graph)
    (stay : ∀ dest, OutputsStay base (redirect moved access.external dest))
    (continues : ∀ id, access.exec = some id → Continues base before.graph access.source id)
    (yielded : Yields (access.writeCopy field) before next after) :
    ∃ dest, access.Delivers field base moved before.graph after.graph dest ∧
      ∃ id, next = some id ∧ Continues base after.graph access.source id := by
  obtain ⟨copy, first, copying, afterCopy⟩ := yields_bind_iff.mp yielded
  obtain ⟨opened, spawned⟩ := Pass.yields_spawn_of_rerouting awaits.rerouting rfl copying
  have awaiting := awaits.undisturbed opened
  obtain ⟨item, second, foundItem, afterItem⟩ := yields_bind_iff.mp afterCopy
  obtain ⟨sameSecond, port⟩ := Pass.yields_findPin awaiting.rerouting.regular foundItem
  rw [← sameSecond] at opened awaiting spawned port
  obtain ⟨copied, third, foundCopied, afterCopied⟩ := yields_bind_iff.mp afterItem
  obtain ⟨sameThird, copiedPort⟩ := Pass.yields_findPin awaiting.rerouting.regular foundCopied
  rw [← sameThird] at opened awaiting spawned port copiedPort
  obtain ⟨_, fourth, routed, afterRoute⟩ := yields_bind_iff.mp afterCopied
  obtain ⟨rerouting, grows⟩ := awaiting.yields_routeValue (spawned.port_added port) routed
  obtain ⟨setter, fifth, setting, afterSetter⟩ := yields_bind_iff.mp afterRoute
  obtain ⟨widened, setterSpawned⟩ := Pass.yields_spawn_of_rerouting rerouting rfl setting
  have widenedRerouting := rerouting.undisturbed widened
  obtain ⟨value, sixth, foundValue, afterValue⟩ := yields_bind_iff.mp afterSetter
  obtain ⟨sameSixth, valuePort⟩ := Pass.yields_findPin widenedRerouting.regular foundValue
  rw [← sameSixth] at widened setterSpawned widenedRerouting valuePort
  obtain ⟨_, seventh, linking, sequence⟩ := yields_bind_iff.mp afterValue
  have toSixth := grows.extended.trans widened.extended
  obtain ⟨joined, linked⟩ := Pass.yields_link_of_rerouting widenedRerouting
    ((spawned.port_added copiedPort).mono toSixth) (setterSpawned.port_added valuePort) linking
  have toSeventh := toSixth.trans joined.extended
  have joinedRerouting := widenedRerouting.undisturbed joined
  have setterJoined := setterSpawned.mono rfl joined.extended
  have valueJoined := valuePort.mono joined.extended
  obtain ⟨ordered, onward⟩ := yields_sequence joinedRerouting (awaiting.handle.mono toSeventh)
    (stay item) (fun id given => (continues id given).mono (opened.extended.trans toSeventh))
    rfl setterJoined sequence
  have written : ValuePort base seventh.graph access.source access.owner field item :=
    .writeCopy copy setter copied value direction kind (spawned.mono rfl toSeventh)
      (port.mono toSeventh) (copiedPort.mono toSeventh) setterJoined valueJoined linked
  refine ⟨item, ⟨joinedRerouting.undisturbed ordered, ?_, ?_⟩, onward⟩
  · exact opened.toGrows.trans (grows.trans (widened.toGrows.trans
      (joined.toGrows.trans ordered.toGrows)))
  · exact written.mono ordered.extended ordered.retains

theorem yields_readValue {next : Option PinId} (direction : field.direction = .output)
    (kind : field.kind = .scalar) (awaits : access.Awaits base moved before.graph)
    (yielded : Yields (access.readValue field) before next after) :
    ∃ dest, access.Delivers field base moved before.graph after.graph dest := by
  obtain ⟨getter, first, spawning, afterSpawn⟩ := yields_bind_iff.mp yielded
  obtain ⟨opened, spawned⟩ := Pass.yields_spawn_of_rerouting awaits.rerouting rfl spawning
  have awaiting := awaits.undisturbed opened
  obtain ⟨value, second, found, afterFind⟩ := yields_bind_iff.mp afterSpawn
  obtain ⟨same, port⟩ := Pass.yields_findPin awaiting.rerouting.regular found
  rw [← same] at opened awaiting spawned port
  obtain ⟨_, third, attaching, afterAttach⟩ := yields_bind_iff.mp afterFind
  have attached := yields_attachHandle awaiting.rerouting awaiting.handle spawned attaching
  obtain ⟨_, fourth, transferred, returned⟩ := yields_bind_iff.mp afterAttach
  obtain ⟨_, rfl⟩ := yields_pure_iff.mp returned
  obtain ⟨rerouting, grows⟩ := (awaiting.undisturbed attached).yields_transferPin
    ((spawned.port_added port).mono attached.extended) transferred
  have extension := attached.extended.trans grows.extended
  refine ⟨value, rerouting, opened.toGrows.trans (attached.toGrows.trans grows), ?_⟩
  exact .read getter direction kind (spawned.mono rfl extension) (port.mono extension)

theorem yields_readCopy {next : Option PinId} (direction : field.direction = .output)
    (kind : field.kind = .struct ∨ field.kind = .array)
    (awaits : access.Awaits base moved before.graph)
    (yielded : Yields (access.readCopy field) before next after) :
    ∃ dest, access.Delivers field base moved before.graph after.graph dest := by
  obtain ⟨getter, first, getting, afterGetter⟩ := yields_bind_iff.mp yielded
  obtain ⟨opened, getterSpawned⟩ := Pass.yields_spawn_of_rerouting awaits.rerouting rfl getting
  have awaiting := awaits.undisturbed opened
  obtain ⟨value, second, foundValue, afterValue⟩ := yields_bind_iff.mp afterGetter
  obtain ⟨sameSecond, valuePort⟩ := Pass.yields_findPin awaiting.rerouting.regular foundValue
  rw [← sameSecond] at opened awaiting getterSpawned valuePort
  obtain ⟨_, third, attaching, afterAttach⟩ := yields_bind_iff.mp afterValue
  have attached := yields_attachHandle awaiting.rerouting awaiting.handle getterSpawned attaching
  obtain ⟨copy, fourth, copying, afterCopy⟩ := yields_bind_iff.mp afterAttach
  obtain ⟨widened, spawned⟩ := Pass.yields_spawn_of_rerouting
    (awaiting.undisturbed attached).rerouting rfl copying
  have toFourth := attached.trans widened
  have waiting := awaiting.undisturbed toFourth
  obtain ⟨item, fifth, foundItem, afterItem⟩ := yields_bind_iff.mp afterCopy
  obtain ⟨sameFifth, itemPort⟩ := Pass.yields_findPin waiting.rerouting.regular foundItem
  rw [← sameFifth] at toFourth waiting spawned itemPort
  obtain ⟨copied, sixth, foundCopied, afterCopied⟩ := yields_bind_iff.mp afterItem
  obtain ⟨sameSixth, port⟩ := Pass.yields_findPin waiting.rerouting.regular foundCopied
  rw [← sameSixth] at toFourth waiting spawned itemPort port
  obtain ⟨_, seventh, linking, afterLink⟩ := yields_bind_iff.mp afterCopied
  obtain ⟨joined, linked⟩ := Pass.yields_link_of_rerouting waiting.rerouting
    ((getterSpawned.port_added valuePort).mono toFourth.extended) (spawned.port_added itemPort)
    linking
  obtain ⟨_, eighth, transferred, returned⟩ := yields_bind_iff.mp afterLink
  obtain ⟨_, rfl⟩ := yields_pure_iff.mp returned
  have portJoined := port.mono joined.extended
  have spawnedJoined := spawned.mono rfl joined.extended
  obtain ⟨rerouting, grows⟩ := (waiting.undisturbed joined).yields_transferPin
    (spawnedJoined.port_added portJoined) transferred
  have toSeventh := toFourth.trans joined
  have readOut : ValuePort base seventh.graph access.source access.owner field copied :=
    .readCopy getter copy value item direction kind (getterSpawned.mono rfl toSeventh.extended)
      (valuePort.mono toSeventh.extended) spawnedJoined (itemPort.mono joined.extended) linked
      portJoined
  refine ⟨copied, rerouting, ?_, readOut.mono grows.extended grows.retains⟩
  exact opened.toGrows.trans (toSeventh.toGrows.trans grows)

/-- A write comes after the writes before it. -/
theorem yields_expand_input {next : Option PinId} (direction : field.direction = .input)
    (awaits : access.Awaits base moved before.graph)
    (stay : ∀ dest, OutputsStay base (redirect moved access.external dest))
    (continues : ∀ id, access.exec = some id → Continues base before.graph access.source id)
    (yielded : Yields (access.expand field) before next after) :
    ∃ dest, access.Delivers field base moved before.graph after.graph dest ∧
      ∃ id, next = some id ∧ Continues base after.graph access.source id := by
  unfold expand at yielded
  rw [direction] at yielded
  cases kind : field.kind with
  | scalar =>
      rw [kind] at yielded
      exact yields_writeValue direction (.inl kind) awaits stay continues yielded
  | struct =>
      rw [kind] at yielded
      exact yields_writeValue direction (.inr kind) awaits stay continues yielded
  | array =>
      rw [kind] at yielded
      exact yields_writeCopy direction kind awaits stay continues yielded
  | delegate =>
      rw [kind] at yielded
      exact yields_writeDelegate direction kind awaits stay continues yielded

theorem yields_expand_output {next : Option PinId} (direction : field.direction = .output)
    (awaits : access.Awaits base moved before.graph)
    (yielded : Yields (access.expand field) before next after) :
    ∃ dest, access.Delivers field base moved before.graph after.graph dest := by
  unfold expand at yielded
  rw [direction] at yielded
  cases kind : field.kind with
  | scalar =>
      rw [kind] at yielded
      exact yields_readValue direction kind awaits yielded
  | struct =>
      rw [kind] at yielded
      exact yields_readCopy direction (.inl kind) awaits yielded
  | array =>
      rw [kind] at yielded
      exact yields_readCopy direction (.inr kind) awaits yielded
  | delegate =>
      rw [kind] at yielded
      exact (not_yields_throw yielded).elim

end FieldAccess

end RigLowering
