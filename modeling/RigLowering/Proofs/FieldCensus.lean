import RigLowering.Proofs.ExecutionOrder
import RigLowering.Proofs.FieldReads

namespace RigLowering

namespace Graph

/-- On the way of expanding `source` from `base` on, with the links of the pins `moved` gone from
the evaluator and those of the pins `externals` still there. -/
structure Pending (base : Graph) (source : NodeId) (moved externals : List PinId) (graph : Graph) :
    Prop where
  began : ∃ made, Stretch base moved [] made base graph
  gone : ∀ pin ∈ moved, base.Owns source pin
  nodup : externals.Nodup
  owned : ∀ pin ∈ externals, base.Owns source pin
  unmoved : ∀ pin ∈ externals, pin ∉ moved

section Pending

variable {base before middle after graph : Graph} {source : NodeId}
  {moved spliced externals : List PinId} {made : List NodeId} {external id : PinId}

theorem Pending.sound (pending : Pending base source moved externals graph) : base.Sound := by
  obtain ⟨_, stretch⟩ := pending.began
  exact stretch.sound

theorem Pending.regular (pending : Pending base source moved externals graph) :
    graph.Regular := by
  obtain ⟨_, stretch⟩ := pending.began
  exact stretch.regular

theorem Pending.extends_base (pending : Pending base source moved externals graph) :
    base.Extends graph := by
  obtain ⟨_, stretch⟩ := pending.began
  exact stretch.extended

theorem Idle.execOutput (idle : Idle base graph id) : graph.ExecOutput id := by
  obtain ⟨⟨face, found, _, output, exec⟩, _⟩ := idle
  exact ⟨face, found, output, exec ▸ rfl⟩

theorem Idle.pinCount_le (idle : Idle base graph id) (sound : base.Sound)
    (extension : base.Extends graph) : base.pins.size ≤ id.index := by
  obtain ⟨⟨face, found, added, _⟩, _⟩ := idle
  exact Added.pinCount_le ⟨face, found, added⟩ sound extension

/-- Two pins of one node are not linked, so that what is pending is still as it was. -/
theorem Pending.links (pending : Pending base source moved externals graph)
    (listed : external ∈ externals) : graph.links external = base.links external := by
  obtain ⟨_, stretch⟩ := pending.began
  have owned := pending.owned external listed
  exact stretch.links_base owned.lt_size (pending.unmoved external listed) fun origin gone member =>
    pending.sound.not_owns_of_mem_links member (pending.gone origin gone) owned

theorem Pending.advance (pending : Pending base source moved (external :: externals) before)
    (stretch : Stretch base [external] spliced made before after)
    (spliceNew : ∀ pin ∈ spliced, base.pins.size ≤ pin.index) :
    Pending base source (moved ++ [external]) externals after where
  began := by
    obtain ⟨earlier, began⟩ := pending.began
    exact ⟨earlier ++ made, began.trans stretch fun pin listed old =>
      (Nat.not_lt_of_le (spliceNew pin listed) old).elim⟩
  gone := by
    intro pin member
    rcases List.mem_append.mp member with member | member
    · exact pending.gone pin member
    · exact List.mem_singleton.mp member ▸ pending.owned external (by simp)
  nodup := (List.nodup_cons.mp pending.nodup).2
  owned := fun pin listed => pending.owned pin (List.mem_cons_of_mem _ listed)
  unmoved := by
    intro pin listed member
    rcases List.mem_append.mp member with member | member
    · exact pending.unmoved pin (List.mem_cons_of_mem _ listed) member
    · obtain rfl := List.mem_singleton.mp member
      exact (List.nodup_cons.mp pending.nodup).1 listed

/-- What feeds an added node goes on feeding it. -/
theorem Stretch.fed {node : NodeId} {name : String} {output : PinId}
    (stretch : Stretch base moved spliced made before after)
    (outputs : ∀ pin ∈ spliced, before.ExecOutput pin) (new : base.nodes.size ≤ node.index)
    (fed : before.Fed node name output) : after.Fed node name output := by
  refine fed.kept stretch.extended fun {id face} found owner input links => ?_
  rw [stretch.links_input found (owner ▸ new) input, links]
  intro listed
  obtain ⟨same, sameFound, output, _⟩ := outputs id listed
  cases found.symm.trans sameFound
  cases input.symm.trans output

end Pending

end Graph

namespace FieldAccess

open RigLowering.Graph

variable {base start graph later : Graph} {access : FieldAccess} {field : Field}
  {moved spliced externals : List PinId} {made : List NodeId} {id : PinId}

theorem Reaches.loose (reaches : access.Reaches graph id)
    (pending : Pending base access.source moved externals graph)
    (listed : access.external ∈ externals)
    (handle : Gives base graph (.object access.owner) access.handle) :
    Loose base graph [access.external] spliced id := by
  rcases reaches with rfl | member | rfl
  · exact .inl ⟨(pending.owned _ listed).lt_size, .inl (by simp)⟩
  · rw [pending.links listed] at member
    obtain ⟨_, far, _, found, _⟩ := pending.sound.joinable member
    exact .inl ⟨lt_size_of_face? found, .inr ⟨_, by simp, member⟩⟩
  · exact .of_gives handle pending.sound pending.extends_base rfl

section Appends

variable {exec : PinId} {next : Option PinId} {before after : PassState}

theorem not_reaches_of_idle (idle : Idle base graph exec)
    (pending : Pending base access.source moved externals graph)
    (listed : access.external ∈ externals)
    (handle : Gives base graph (.object access.owner) access.handle) :
    ¬ access.Reaches graph exec := by
  have new := idle.pinCount_le pending.sound pending.extends_base
  rintro (rfl | member | rfl)
  · exact Nat.not_lt_of_le new (pending.owned _ listed).lt_size
  · rw [pending.links listed] at member
    obtain ⟨_, far, _, found, _⟩ := pending.sound.joinable member
    exact Nat.not_lt_of_le new (lt_size_of_face? found)
  · exact PinType.referring_ne_exec _ _ (handle.unique idle.1)

/-- A write has been put after `exec`, and execution is to go on from `continuation`. -/
structure Appends (access : FieldAccess) (field : Field) (base : Graph) (exec : PinId)
    (made : List NodeId) (writer : NodeId) (continuation : PinId) (before after : Graph) : Prop
    extends Stretch base [access.external] [exec] made before after where
  writes : access.Writes field base after made writer
  entry : ∃ id, after.HasPin writer ⟨.input, .exec, PinName.execute⟩ id ∧ after.links exec = [id]
  exit : after.HasPin writer ⟨.output, .exec, PinName.continuation⟩ continuation
  fresh : before.pins.size ≤ continuation.index
  idle : Idle base after continuation

theorem appends_of_expand (access : FieldAccess)
    (pending : Pending base access.source moved (access.external :: externals) before.graph)
    (handle : Gives base before.graph (.object access.owner) access.handle)
    (idle : Idle base before.graph exec) (direction : field.direction = .input)
    (given : access.exec = some exec)
    (yielded : Yields (access.expand field) before next after) :
    ∃ made writer continuation, next = some continuation ∧
      access.Appends field base exec made writer continuation before.graph after.graph := by
  have unreached := not_reaches_of_idle idle pending (by simp) handle
  obtain ⟨made, writer, continuation, rfl, places⟩ :=
    places_of_expand pending.regular direction idle.execOutput given (.inr unreached) yielded
  have writes := places.writes.since pending.extends_base
  refine ⟨made, writer, continuation, rfl, ⟨?_, pending.sound, pending.extends_base⟩, writes,
    places.entry, places.exit, ?_, places.exit.gives writes.spawned.added, ?_⟩
  · refine places.mono ?_ fun _ => False.elim
    rintro id _ (reached | rfl | member)
    · exact reached.loose pending (by simp) handle
    · exact .inr ⟨idle.pinCount_le pending.sound pending.extends_base, .inl (by simp)⟩
    · rw [idle.2] at member
      cases member
  · obtain ⟨face, found, rfl, _⟩ := places.exit
    exact places.pinCount_le pending.regular.toSound found places.writes.spawned.added
  · rw [places.inherits, idle.2]

/-- A read of the pin has been made. -/
theorem stretch_of_read (access : FieldAccess)
    (pending : Pending base access.source moved (access.external :: externals) before.graph)
    (handle : Gives base before.graph (.object access.owner) access.handle)
    (direction : field.direction = .output)
    (yielded : Yields (access.expand field) before next after) :
    ∃ made, Stretch base [access.external] [] made before.graph after.graph ∧
      access.Reads field base after.graph made := by
  have old := (pending.owned access.external (by simp)).lt_size
  have stands : access.Stands before.graph := by
    refine ⟨Nat.lt_of_lt_of_le old pending.extends_base.pinCount, fun same => ?_⟩
    obtain ⟨face, found, added, _⟩ := handle
    have new := Added.pinCount_le ⟨face, found, added⟩ pending.sound pending.extends_base
    exact Nat.not_lt_of_le new (same ▸ old)
  obtain ⟨made, footprint, reads⟩ := reads_of_expand pending.regular direction stands yielded
  refine ⟨made, ⟨?_, pending.sound, pending.extends_base⟩, reads.since pending.extends_base⟩
  exact footprint.mono (fun _ reached => reached.loose pending (by simp) handle)
    fun _ => False.elim

end Appends

end FieldAccess

namespace Target

open RigLowering.Graph

variable {base : Graph} {target : Target} {moved : List PinId} {handle exec : PinId}
  {next : Option PinId} {before after : PassState} {parameters : List (PinId × Field)}

/-- The writes of an evaluator make their own nodes and no others, and run in the order of the
pins. -/
theorem census_of_writes
    (pending : Pending base target.node moved (parameters.map (·.1)) before.graph)
    (gives : Gives base before.graph (.object target.rigType) handle)
    (idle : Idle base before.graph exec)
    (inputs : ∀ parameter ∈ parameters, parameter.2.direction = .input)
    (yielded : Yields (parameters.foldlM (fun exec parameter =>
      (target.access handle parameter.1 exec).expand parameter.2) (some exec)) before next after) :
    ∃ writes : List (List NodeId × NodeId), ∃ last,
      Stretch base (parameters.map (·.1)) [exec] (writes.flatMap (·.1)) before.graph after.graph ∧
      List.Forall₂ (fun parameter write => parameter.2.WrittenBy target.node target.rigType handle
        base after.graph write.1 write.2) parameters writes ∧
      after.graph.Sequence exec (writes.map (·.2)) last ∧ after.graph.links last = [] := by
  induction parameters generalizing before exec moved with
  | nil =>
      obtain ⟨_, rfl⟩ := yields_pure_iff.mp yielded
      refine ⟨[], exec, ?_, .nil, .done, idle.2⟩
      exact (Stretch.refl pending.sound pending.extends_base pending.regular).mono
        (by simp) (by simp)
  | cons parameter rest ih =>
      rw [List.foldlM_cons] at yielded
      obtain ⟨onward, middle, first, others⟩ := yields_bind_iff.mp yielded
      obtain ⟨made, writer, continuation, rfl, appends⟩ := FieldAccess.appends_of_expand
        (target.access handle parameter.1 (some exec)) pending gives idle
        (inputs parameter (by simp)) rfl first
      have execNew := idle.pinCount_le pending.sound pending.extends_base
      obtain ⟨writes, last, stretch, written, sequence, unlinked⟩ :=
        ih (pending.advance appends.toStretch (by simpa using execNew))
          (gives.mono appends.extended) appends.idle
          (fun later member => inputs later (List.mem_cons_of_mem _ member)) others
      obtain ⟨execute, hasEntry, only⟩ := appends.entry
      refine ⟨(made, writer) :: writes, last, ?_, .cons ?_ written, ?_, unlinked⟩
      · refine appends.toStretch.trans stretch fun pin listed old => ?_
        obtain rfl := List.mem_singleton.mp listed
        exact (Nat.not_lt_of_le appends.fresh old).elim
      · refine appends.writes.mono stretch.extended fun new _ => stretch.fed ?_ new
        simpa using appends.idle.execOutput
      · refine .next (hasEntry.mono stretch.extended) ?_ (appends.exit.mono stretch.extended)
          sequence
        obtain ⟨⟨face, found, added, _, typed⟩, _⟩ := idle
        rw [stretch.links_exec (appends.extended.face?_eq found) added (typed ▸ rfl), only]
        intro listed
        obtain rfl := List.mem_singleton.mp listed
        exact Nat.not_lt_of_le appends.fresh (lt_size_of_face? found)

theorem census_of_reads
    (pending : Pending base target.node moved (parameters.map (·.1)) before.graph)
    (gives : Gives base before.graph (.object target.rigType) handle)
    (outputs : ∀ parameter ∈ parameters, parameter.2.direction = .output)
    (yielded : Yields (target.readOutputs handle parameters) before () after) :
    ∃ reads : List (List NodeId),
      Stretch base (parameters.map (·.1)) [] reads.flatten before.graph after.graph ∧
      List.Forall₂ (fun parameter read => parameter.2.ReadBy target.node target.rigType handle
        base after.graph read) parameters reads := by
  unfold readOutputs at yielded
  induction parameters generalizing before moved with
  | nil =>
      obtain ⟨_, rfl⟩ := yields_pure_iff.mp yielded
      exact ⟨[], Stretch.refl pending.sound pending.extends_base pending.regular, .nil⟩
  | cons parameter rest ih =>
      obtain ⟨_, middle, first, others⟩ := yields_bind_iff.mp yielded
      obtain ⟨_, expanded⟩ := yields_discard_iff.mp first
      obtain ⟨made, step, read⟩ := FieldAccess.stretch_of_read
        (target.access handle parameter.1 none) pending gives
        (outputs parameter (by simp)) expanded
      obtain ⟨reads, stretch, all⟩ := ih (pending.advance step (by simp))
        (gives.mono step.extended)
        (fun later member => outputs later (List.mem_cons_of_mem _ member)) others
      refine ⟨made :: reads, step.trans stretch (by simp), .cons ?_ all⟩
      exact read.mono stretch.extended fun new _ => stretch.fed (by simp) new

end Target

end RigLowering
