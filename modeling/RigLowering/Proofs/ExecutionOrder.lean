import RigLowering.Proofs.FieldWrites

namespace RigLowering

namespace Graph

/-- Execution goes on from `exec` to nothing but the nodes, one after another, and leaves the last
of them by `last`. -/
inductive Sequence (graph : Graph) : PinId → List NodeId → PinId → Prop
  | done {exec : PinId} : Sequence graph exec [] exec
  | next {exec execute continuation last : PinId} {node : NodeId} {nodes : List NodeId}
      (enters : graph.HasPin node ⟨.input, .exec, PinName.execute⟩ execute)
      (only : graph.links exec = [execute])
      (leaves : graph.HasPin node ⟨.output, .exec, PinName.continuation⟩ continuation)
      (onward : Sequence graph continuation nodes last) :
      Sequence graph exec (node :: nodes) last

section Sequence

variable {before after graph : Graph} {exec last id : PinId} {node : NodeId}
  {nodes : List NodeId}

theorem ExecOutput.not_mem_links {far : PinId} (exec : graph.ExecOutput id)
    (farExec : graph.ExecOutput far) (sound : graph.Sound) : far ∉ graph.links id := by
  intro member
  obtain ⟨face, found, input⟩ := farExec.of_mem_links sound member
  obtain ⟨same, sameFound, output, _⟩ := exec
  cases found.symm.trans sameFound
  cases input.symm.trans output

/-- The order stays as long as the outputs that it goes by keep their links. -/
theorem Sequence.mono {base : Graph} (sequence : before.Sequence exec nodes last)
    (extension : before.Extends after) (new : ∀ node ∈ nodes, base.nodes.size ≤ node.index)
    (starts : Gives base before .exec exec)
    (links : ∀ {id far}, Gives base before .exec id → Added base before far →
      before.links id = [far] → after.links id = [far]) : after.Sequence exec nodes last := by
  induction sequence with
  | done => exact .done
  | @next _ _ _ _ node _ enters only leaves _ ih =>
      have nodeNew := new node (by simp)
      exact .next (enters.mono extension) (links starts (enters.added nodeNew) only)
        (leaves.mono extension)
        (ih (fun other member => new other (List.mem_cons_of_mem _ member)) (leaves.gives nodeNew))

theorem Sequence.gives_last {base : Graph} (sequence : graph.Sequence exec nodes last)
    (new : ∀ node ∈ nodes, base.nodes.size ≤ node.index) (starts : Gives base graph .exec exec) :
    Gives base graph .exec last := by
  induction sequence with
  | done => exact starts
  | next _ _ leaves _ ih =>
      exact ih (fun other member => new other (List.mem_cons_of_mem _ member))
        (leaves.gives (new _ (by simp)))

/-- Execution goes on from the event to the nodes, one after another, and no further. -/
def Runs (graph : Graph) (event : NodeId) (nodes : List NodeId) : Prop :=
  ∃ exec last, graph.HasPin event ⟨.output, .exec, PinName.continuation⟩ exec ∧
    graph.Sequence exec nodes last ∧ graph.links last = []

end Sequence

end Graph

namespace FieldAccess

open RigLowering.Graph

variable {access : FieldAccess} {field : Field} {node : NodeId} {exec : PinId}
  {next : Option PinId} {before after : PassState}

theorem spliceExec_effect (regular : before.graph.Regular) (unplaced : before.graph.Unplaced node)
    (starts : before.graph.ExecOutput exec) (foreign : ¬ before.graph.Owns node exec)
    (yielded : Yields (spliceExec (some exec) node) before next after) :
    ∃ execute continuation, next = some continuation ∧
      before.graph.HasPin node ⟨.input, .exec, PinName.execute⟩ execute ∧
      before.graph.HasPin node ⟨.output, .exec, PinName.continuation⟩ continuation ∧
      Footprint [] (fun id => id = exec ∨ id ∈ before.graph.links exec ∨ id = execute ∨
        id = continuation) (fun _ => False) before.graph after.graph ∧
      (∀ {other name output}, output ≠ exec → before.graph.Fed other name output →
        after.graph.Fed other name output) ∧
      after.graph.links exec = [execute] ∧
      after.graph.links continuation = before.graph.links exec := by
  obtain ⟨⟨_, hasEntry, entry⟩, _, hasExit, exit⟩ := unplaced
  obtain ⟨execute, _, searched, afterEntry⟩ := yields_bind_iff.mp yielded
  obtain ⟨rfl, port⟩ := Pass.yields_port regular searched
  obtain rfl := hasEntry.eq_of_port regular port
  obtain ⟨continuation, _, searched, afterExit⟩ := yields_bind_iff.mp afterEntry
  obtain ⟨rfl, port⟩ := Pass.yields_port regular searched
  obtain rfl := hasExit.eq_of_port regular port
  obtain ⟨_, middle, moving, afterMove⟩ := yields_bind_iff.mp afterExit
  obtain ⟨_, last, linking, returned⟩ := yields_bind_iff.mp afterMove
  obtain ⟨rfl, rfl⟩ := yields_pure_iff.mp returned
  have exitForeign : exec ≠ continuation := by
    rintro rfl
    exact foreign hasExit.owns
  have entryForeign : execute ≠ exec := by
    rintro rfl
    exact foreign hasEntry.owns
  have apart : execute ≠ continuation := hasEntry.ne hasExit nofun
  have moved := Edit.transferLinks_footprint regular (Pass.yields_edit moving)
  obtain ⟨same, _⟩ | ⟨_, lists⟩ := Edit.transferLinks_lists regular (Pass.yields_edit moving)
  · exact (exitForeign same).elim
  have emptied : middle.graph.links execute = [] := by
    rw [lists.elsewhere entryForeign apart, entry]
    rw [regular.mem_links_comm, entry]
    exact List.not_mem_nil
  obtain ⟨comes, _⟩ :=
    Edit.link_unlinked moved.regular.toSound (Pass.yields_edit linking) emptied
  have spliced : Footprint [] (fun id => id = exec ∨ id ∈ before.graph.links exec ∨
      id = execute ∨ id = continuation) (fun _ => False) before.graph after.graph := by
    refine (moved.mono ?_ fun _ => id).andThen (Pass.link_footprint moved.regular linking) ?_
      fun _ => id
    · rintro id _ (rfl | rfl | member)
      · exact .inl rfl
      · exact .inr (.inr (.inr rfl))
      · exact .inr (.inl member)
    · rintro id _ (rfl | rfl)
      · exact .inl rfl
      · exact .inr (.inr (.inl rfl))
  refine ⟨execute, continuation, rfl, hasEntry, hasExit, spliced, ?_, ?_, ?_⟩
  · intro other name output different fed
    refine fed.kept spliced.extended fun {id face} found _ input links => ?_
    rw [spliced.links (lt_size_of_face? found), links]
    rintro (rfl | member | rfl | rfl)
    · obtain ⟨same, sameFound, output, _⟩ := starts
      cases found.symm.trans sameFound
      cases input.symm.trans output
    · rw [regular.mem_links_comm, links, List.mem_singleton] at member
      exact different member.symm
    · rw [entry] at links
      cases links
    · rw [exit] at links
      cases links
  · rw [comes, lists.emptied, List.nil_append]
  · rw [Edit.link_elsewhere (Pass.yields_edit linking) exitForeign.symm apart.symm,
      lists.collected, exit]
    simp

/-- A write has come right after `exec`, and what came after `exec` comes after `continuation`. -/
structure Places (access : FieldAccess) (field : Field) (exec : PinId) (made : List NodeId)
    (writer : NodeId) (continuation : PinId) (before after : Graph) : Prop
    extends Footprint made (fun id => access.Reaches before id ∨ id = exec ∨
      id ∈ before.links exec) (fun _ => False) before after where
  writes : access.Writes field before after made writer
  entry : ∃ id, after.HasPin writer ⟨.input, .exec, PinName.execute⟩ id ∧ after.links exec = [id]
  exit : after.HasPin writer ⟨.output, .exec, PinName.continuation⟩ continuation
  inherits : after.links continuation = before.links exec
  spares : field.pinType.IsValue → ∀ {id}, access.Reaches before id → ¬ before.ExecOutput id

theorem places_of_expand (regular : before.graph.Regular) (direction : field.direction = .input)
    (starts : before.graph.ExecOutput exec) (given : access.exec = some exec)
    (apart : field.pinType.IsValue ∨ ¬ access.Reaches before.graph exec)
    (yielded : Yields (access.expand field) before next after) :
    ∃ made writer continuation, next = some continuation ∧
      access.Places field exec made writer continuation before.graph after.graph := by
  obtain ⟨made, writer, middle, prepares, splicing⟩ := prepares_expand regular direction yielded
  rw [given] at splicing
  have unreached : ¬ access.Reaches before.graph exec :=
    apart.elim (fun isValue reached => prepares.spares isValue reached starts) id
  have sameLinks := prepares.links starts.lt_size unreached
  have writerNew := prepares.writes.spawned.added
  have new {id : PinId} (owned : middle.graph.Owns writer id) :
      before.graph.pins.size ≤ id.index := by
    obtain ⟨face, found, rfl⟩ := owned
    exact prepares.pinCount_le regular.toSound found writerNew
  have foreign : ¬ middle.graph.Owns writer exec := fun owned =>
    Nat.not_lt_of_le (new owned) starts.lt_size
  obtain ⟨execute, continuation, rfl, hasEntry, hasExit, spliced, fed, only, inherits⟩ :=
    spliceExec_effect prepares.regular prepares.unplaced (starts.mono prepares.extended) foreign
      splicing
  have extended := spliced.extended
  refine ⟨made, writer, continuation, rfl, ?_, ?_, ?_, ?_, ?_, prepares.spares⟩
  · refine (prepares.mono (fun _ => .inl) fun _ => id).andThen spliced ?_ fun _ => id
    rintro id old (rfl | member | rfl | rfl)
    · exact .inr (.inl rfl)
    · exact .inr (.inr (sameLinks ▸ member))
    · exact (Nat.not_lt_of_le (new hasEntry.owns) old).elim
    · exact (Nat.not_lt_of_le (new hasExit.owns) old).elim
  · refine prepares.writes.mono extended fun _ gives => fed ?_
    rintro rfl
    rcases gives with rfl | added
    · exact unreached (.inr (.inr rfl))
    · exact Nat.not_lt_of_le (added.pinCount_le regular.toSound prepares.extended) starts.lt_size
  · exact ⟨execute, hasEntry.mono extended, only⟩
  · exact hasExit.mono extended
  · rw [inherits, sameLinks]

/-- Execution goes on as before from wherever else it goes on from. -/
theorem Places.links_execOutput {made : List NodeId} {writer : NodeId} {continuation id : PinId}
    {graph later : Graph} (places : access.Places field exec made writer continuation graph later)
    (sound : graph.Sound) (starts : graph.ExecOutput exec) (isValue : field.pinType.IsValue)
    (leads : graph.ExecOutput id) (other : id ≠ exec) : later.links id = graph.links id := by
  apply places.links leads.lt_size
  rintro (reached | rfl | member)
  · exact places.spares isValue reached leads
  · exact other rfl
  · exact starts.not_mem_links leads sound member

/-- Writes that are given one after another where to go on from come to pass in that order. -/
theorem sequence_of_foldlM {steps : List (FieldAccess × Field)} (regular : before.graph.Regular)
    (starts : before.graph.ExecOutput exec)
    (inputs : ∀ step ∈ steps, step.2.direction = .input ∧ step.2.pinType.IsValue)
    (yielded : Yields (steps.foldlM (fun exec step => expand { step.1 with exec } step.2)
      (some exec)) before next after) :
    before.graph.Extends after.graph ∧
      (∀ {id}, before.graph.ExecOutput id → id ≠ exec →
        after.graph.links id = before.graph.links id) ∧
      ∃ writers last, next = some last ∧ after.graph.Sequence exec writers last ∧
        after.graph.links last = before.graph.links exec ∧
        List.Forall₂ (fun step writer => Spawned before.graph after.graph step.1.source
          (step.2.writeKind step.1.owner) writer) steps writers := by
  induction steps generalizing before exec with
  | nil =>
      obtain ⟨rfl, rfl⟩ := yields_pure_iff.mp yielded
      exact ⟨.refl _, fun _ _ => rfl, [], exec, rfl, .done, rfl, .nil⟩
  | cons step rest ih =>
      rw [List.foldlM_cons] at yielded
      obtain ⟨onward, middle, first, others⟩ := yields_bind_iff.mp yielded
      obtain ⟨direction, isValue⟩ := inputs step (by simp)
      obtain ⟨made, writer, continuation, rfl, places⟩ :=
        places_of_expand regular direction starts rfl (.inl isValue) first
      obtain ⟨extended, untouched, writers, last, rfl, sequence, inherits, spawned⟩ :=
        ih places.regular places.exit.execOutput
          (fun later member => inputs later (List.mem_cons_of_mem _ member)) others
      have different {id : PinId} (leads : before.graph.ExecOutput id) : id ≠ continuation := by
        rintro rfl
        obtain ⟨face, found, rfl, _⟩ := places.exit
        exact Nat.not_lt_of_le
          (places.pinCount_le regular.toSound found places.writes.spawned.added) leads.lt_size
      obtain ⟨execute, hasEntry, only⟩ := places.entry
      refine ⟨places.extended.trans extended, ?_, writer :: writers, last, rfl, ?_, ?_, ?_⟩
      · intro id leads other
        rw [untouched (leads.mono places.extended) (different leads),
          places.links_execOutput regular.toSound starts isValue leads other]
      · refine .next (hasEntry.mono extended) ?_ (places.exit.mono extended) sequence
        rw [untouched (starts.mono places.extended) (different starts), only]
      · rw [inherits, places.inherits]
      · refine .cons (places.writes.spawned.mono (step.2.settings?_writeKind _) extended) ?_
        exact spawned.imp fun _ _ spawned => spawned.since places.extended

end FieldAccess

end RigLowering
