import RigLowering.Proofs.FieldWrites

namespace RigLowering

namespace Field

open RigLowering.Graph

/-- The nodes that a read of the field of the handle is made of. -/
inductive ReadBy (field : Field) (source : NodeId) (owner : String) (handle : PinId)
    (before after : Graph) : List NodeId → Prop
  | direct {getter : NodeId} (scalar : field.kind = .scalar)
      (spawned : Spawned before after source (.getField owner field.name) getter)
      (self : after.Fed getter PinName.self handle) :
      ReadBy field source owner handle before after [getter]
  | copied {getter copy : NodeId} {value : PinId}
      (compound : field.kind = .struct ∨ field.kind = .array)
      (spawned : Spawned before after source (.getField owner field.name) getter)
      (self : after.Fed getter PinName.self handle)
      (gives : after.Port getter .output field.name value)
      (copies : Spawned before after source .copy copy)
      (item : after.Fed copy PinName.item value) :
      ReadBy field source owner handle before after [getter, copy]

section ReadBy

variable {field : Field} {source : NodeId} {owner : String} {handle : PinId}
  {base start graph later : Graph} {made : List NodeId}

/-- A read stays one as long as its nodes are fed as they were. -/
theorem ReadBy.mono (read : field.ReadBy source owner handle start graph made)
    (extension : graph.Extends later)
    (fed : ∀ {node name output}, start.nodes.size ≤ node.index →
      output = handle ∨ Added start graph output → graph.Fed node name output →
        later.Fed node name output) : field.ReadBy source owner handle start later made := by
  cases read with
  | direct scalar spawned self =>
      exact .direct scalar (spawned.mono rfl extension) (fed spawned.added (.inl rfl) self)
  | copied compound spawned self gives copies item =>
      exact .copied compound (spawned.mono rfl extension) (fed spawned.added (.inl rfl) self)
        (gives.mono extension) (copies.mono rfl extension)
        (fed copies.added (.inr (spawned.port_added gives)) item)

theorem ReadBy.since (read : field.ReadBy source owner handle start graph made)
    (begun : base.Extends start) : field.ReadBy source owner handle base graph made := by
  cases read with
  | direct scalar spawned self => exact .direct scalar (spawned.since begun) self
  | copied compound spawned self gives copies item =>
      exact .copied compound (spawned.since begun) self gives (copies.since begun) item

end ReadBy

end Field

namespace FieldAccess

open RigLowering.Graph

variable {access : FieldAccess} {field : Field} {start : Graph} {made : List NodeId}
  {before after : PassState} {next : Option PinId}

abbrev Reads (access : FieldAccess) (field : Field) (before after : Graph) :
    List NodeId → Prop :=
  field.ReadBy access.source access.owner access.handle before after

/-- The getter of a read, before its value goes anywhere. -/
structure Gets (access : FieldAccess) (field : Field) (getter : NodeId) (value : PinId)
    (before after : Graph) : Prop
    extends Footprint [getter] (access.Reaches before) (fun _ => False) before after where
  spawned : Spawned before after access.source (.getField access.owner field.name) getter
  self : after.Fed getter PinName.self access.handle
  gives : after.HasPin getter ⟨.output, field.pinType, field.name⟩ value
  awaits : after.links access.external = before.links access.external

/-- The external pin was there before the read, and it is not where the owner comes from. -/
structure Stands (access : FieldAccess) (graph : Graph) : Prop where
  old : access.external.index < graph.pins.size
  apart : access.external ≠ access.handle

/-- A read up to where its value comes from the getter. -/
def fetch (access : FieldAccess) (field : Field) : Pass PinId := do
  let getter ← Pass.spawnGetField access.source access.owner field
  let value ← Pass.findPin getter field.name .output
  access.attachHandle getter
  return value

theorem readValue_eq_fetch (access : FieldAccess) (field : Field) :
    access.readValue field = (do
      let value ← access.fetch field
      Pass.transferPin access.external value
      return access.exec) := by
  simp only [readValue, fetch, bind_assoc, pure_bind]

theorem readCopy_eq_fetch (access : FieldAccess) (field : Field) :
    access.readCopy field = (do
      let value ← access.fetch field
      let copy ← Pass.spawnCopy access.source field.pinType
      let item ← Pass.findPin copy PinName.item .input
      let copied ← Pass.findPin copy PinName.returnValue .output
      Pass.edit (.link value item)
      Pass.transferPin access.external copied
      return access.exec) := by
  simp only [readCopy, fetch, bind_assoc, pure_bind]

theorem gets_of_fetch {value : PinId} (regular : before.graph.Regular)
    (stands : access.Stands before.graph)
    (yielded : Yields (access.fetch field) before value after) :
    ∃ getter, access.Gets field getter value before.graph after.graph := by
  obtain ⟨getter, first, spawning, afterSpawn⟩ := yields_bind_iff.mp yielded
  have makes := Pass.spawn_makes regular rfl spawning
  have sound := regular.toSound
  obtain ⟨self, hasSelf⟩ := makes.bears _ (PrimitivePins.self_mem_getField access.owner field)
  have fresh := makes.unlinked sound hasSelf.owns
  have selfNew := makes.pinCount_le sound hasSelf.owns
  obtain ⟨value, _, searched, afterSearch⟩ := yields_bind_iff.mp afterSpawn
  obtain ⟨rfl, port⟩ := Pass.yields_port makes.regular searched
  have hasValue := makes.hasPin (.refl _) makes.regular
    (PrimitivePins.value_mem_getField access.owner field) port
  obtain ⟨_, second, attaching, returned⟩ := yields_bind_iff.mp afterSearch
  obtain ⟨rfl, rfl⟩ := yields_pure_iff.mp returned
  obtain ⟨attached, fed, _⟩ := attachHandle_effect makes.regular hasSelf fresh attaching
  refine ⟨getter, makes.widen.andThen attached ?_ fun _ => id,
    makes.spawned.mono rfl attached.extended,
    ⟨self, hasSelf.port.mono attached.extended, fed⟩, hasValue.mono attached.extended, ?_⟩
  · rintro id old (rfl | rfl)
    · exact .inr (.inr rfl)
    · exact (Nat.not_lt_of_le selfNew old).elim
  · rw [attached.links (Nat.lt_of_lt_of_le stands.old makes.pinCount), makes.sameLinks]
    rintro (same | rfl)
    · exact stands.apart same
    · exact Nat.not_lt_of_le selfNew stands.old

/-- The links of the external pin come to an added output, which changes the feed of no added
node. -/
theorem transferPin_of_footprint {dest : PinId} {node : NodeId} {name : String}
    (footprint : Footprint made (access.Reaches start) (fun _ => False) start before.graph)
    (sound : start.Sound) (stands : access.Stands start)
    (awaits : before.graph.links access.external = start.links access.external)
    (port : before.graph.Port node .output name dest) (new : start.nodes.size ≤ node.index)
    (yielded : Yields (Pass.transferPin access.external dest) before () after) :
    Footprint made (access.Reaches start) (fun _ => False) start after.graph ∧
      before.graph.Extends after.graph ∧
      ∀ {other input output}, start.nodes.size ≤ other.index → output ≠ access.external →
        before.graph.Fed other input output → after.graph.Fed other input output := by
  obtain ⟨moved, _⟩ := Pass.transferPin_footprint footprint.regular yielded
  obtain ⟨destFace, destFound, rfl, toward, _⟩ := port
  have destNew := footprint.pinCount_le sound destFound new
  refine ⟨footprint.andThen moved ?_ ?_, moved.extended, ?_⟩
  · rintro id old (rfl | rfl | member)
    · exact .inl rfl
    · exact (Nat.not_lt_of_le destNew old).elim
    · exact .inr (.inl (awaits ▸ member))
  · rintro id old ⟨rfl, _⟩
    exact Nat.not_lt_of_le destNew old
  · intro other input output otherNew different fed
    refine fed.kept moved.extended fun {id face} found owner direction links => ?_
    rw [moved.links (lt_size_of_face? found), links]
    rintro (rfl | rfl | member)
    · exact Nat.not_lt_of_le (footprint.pinCount_le sound found (owner ▸ otherNew)) stands.old
    · cases found.symm.trans destFound
      cases direction.symm.trans toward
    · rw [footprint.regular.mem_links_comm, links, List.mem_singleton] at member
      exact different member.symm

theorem reads_of_readValue (regular : before.graph.Regular) (stands : access.Stands before.graph)
    (scalar : field.kind = .scalar)
    (yielded : Yields (access.readValue field) before next after) :
    ∃ made, Footprint made (access.Reaches before.graph) (fun _ => False) before.graph
        after.graph ∧ access.Reads field before.graph after.graph made := by
  rw [readValue_eq_fetch] at yielded
  obtain ⟨value, first, fetched, transferring⟩ := yields_bind_iff.mp yielded
  obtain ⟨getter, gets⟩ := gets_of_fetch regular stands fetched
  obtain ⟨_, last, moving, returned⟩ := yields_bind_iff.mp transferring
  obtain ⟨_, rfl⟩ := yields_pure_iff.mp returned
  obtain ⟨footprint, extended, fed⟩ := transferPin_of_footprint gets.toFootprint regular.toSound
    stands gets.awaits gets.gives.port gets.spawned.added moving
  exact ⟨[getter], footprint, .direct scalar (gets.spawned.mono rfl extended)
    (fed gets.spawned.added stands.apart.symm gets.self)⟩

/-- A copy takes the value from the getter, and the links go to the copy. -/
theorem reads_of_readCopy (regular : before.graph.Regular) (stands : access.Stands before.graph)
    (compound : field.kind = .struct ∨ field.kind = .array)
    (yielded : Yields (access.readCopy field) before next after) :
    ∃ made, Footprint made (access.Reaches before.graph) (fun _ => False) before.graph
        after.graph ∧ access.Reads field before.graph after.graph made := by
  rw [readCopy_eq_fetch] at yielded
  obtain ⟨value, first, fetched, afterGet⟩ := yields_bind_iff.mp yielded
  obtain ⟨getter, gets⟩ := gets_of_fetch regular stands fetched
  have sound := regular.toSound
  have firstSound := gets.regular.toSound
  have valueOld := gets.gives.lt_size
  have valueNew : before.graph.pins.size ≤ value.index := by
    obtain ⟨face, found, rfl, _⟩ := gets.gives
    exact gets.pinCount_le sound found gets.spawned.added
  obtain ⟨copy, second, copying, afterCopy⟩ := yields_bind_iff.mp afterGet
  have copies := Pass.spawn_makes gets.regular rfl copying
  have copyNew := Nat.le_trans gets.nodeCount_le copies.spawned.added
  obtain ⟨item, _, searchedItem, afterItem⟩ := yields_bind_iff.mp afterCopy
  obtain ⟨rfl, itemPort⟩ := Pass.yields_port copies.regular searchedItem
  obtain ⟨copied, _, searchedCopied, afterCopied⟩ := yields_bind_iff.mp afterItem
  obtain ⟨rfl, copiedPort⟩ := Pass.yields_port copies.regular searchedCopied
  obtain ⟨_, third, linking, afterLink⟩ := yields_bind_iff.mp afterCopied
  obtain ⟨linked, toThird, fedItem, _⟩ :=
    Pass.link_of_makes firstSound copies itemPort valueOld linking
  obtain ⟨_, last, moving, returned⟩ := yields_bind_iff.mp afterLink
  obtain ⟨_, rfl⟩ := yields_pure_iff.mp returned
  have whole : Footprint [getter, copy] (access.Reaches before.graph) (fun _ => False)
      before.graph third.graph := by
    refine gets.toFootprint.trans linked ?_ fun _ => id
    rintro id old rfl
    exact (Nat.not_lt_of_le valueNew old).elim
  have awaits : third.graph.links access.external = before.graph.links access.external := by
    rw [linked.links (Nat.lt_of_lt_of_le stands.old gets.pinCount), gets.awaits]
    rintro rfl
    exact Nat.not_lt_of_le valueNew stands.old
  have fedSelf : third.graph.Fed getter PinName.self access.handle := by
    refine gets.self.kept linked.extended fun {id face} found _ input links => ?_
    rw [linked.links (lt_size_of_face? found), links]
    rintro rfl
    obtain ⟨same, sameFound, _, spec⟩ := gets.gives
    cases found.symm.trans sameFound
    cases input.symm.trans (congrArg PinSpec.direction spec)
  obtain ⟨footprint, extended, fed⟩ := transferPin_of_footprint whole sound stands awaits
    (copiedPort.mono toThird) copyNew moving
  have valueOther : value ≠ access.external := by
    rintro rfl
    exact Nat.not_lt_of_le valueNew stands.old
  refine ⟨[getter, copy], footprint, .copied compound
    (gets.spawned.mono rfl (linked.extended.trans extended))
    (fed gets.spawned.added stands.apart.symm fedSelf)
    (gets.gives.port.mono (linked.extended.trans extended))
    ((copies.spawned.since gets.extended).mono rfl (toThird.trans extended)) ?_⟩
  exact fed copyNew valueOther fedItem

/-- Reads of all kinds. -/
theorem reads_of_expand (regular : before.graph.Regular) (direction : field.direction = .output)
    (stands : access.Stands before.graph)
    (yielded : Yields (access.expand field) before next after) :
    ∃ made, Footprint made (access.Reaches before.graph) (fun _ => False) before.graph
        after.graph ∧ access.Reads field before.graph after.graph made := by
  unfold expand at yielded
  rw [direction] at yielded
  cases kind : field.kind with
  | scalar =>
      rw [kind] at yielded
      exact reads_of_readValue regular stands kind yielded
  | struct =>
      rw [kind] at yielded
      exact reads_of_readCopy regular stands (.inl kind) yielded
  | array =>
      rw [kind] at yielded
      exact reads_of_readCopy regular stands (.inr kind) yielded
  | delegate =>
      rw [kind] at yielded
      exact (not_yields_throw yielded).elim

end FieldAccess

end RigLowering
