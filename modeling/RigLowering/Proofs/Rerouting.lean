import RigLowering.Proofs.Spawning

namespace RigLowering

namespace Graph

/-! The links of the evaluator `source` on their way.  In `graph` the pin `moved id` has the links
that `id` had in `base`, where the expansion of `source` began. -/

structure Rerouting (base : Graph) (source : NodeId) (moved : PinId → PinId) (graph : Graph) :
    Prop where
  sound : base.Sound
  grown : Grows base source base graph
  target : ∀ {id}, moved id ≠ id → ∃ face dest, base.face? id = some face ∧
    face.owner = source ∧ graph.face? (moved id) = some dest ∧
      base.nodes.size ≤ dest.owner.index ∧ dest.direction = face.direction
  links : ∀ {id far}, id.index < base.pins.size →
    (far ∈ graph.links id ↔ moved id = id ∧ ∃ old ∈ base.links id, moved old = far)

/-- The outputs of the evaluator have their links still. -/
def OutputsStay (base : Graph) (moved : PinId → PinId) : Prop :=
  ∀ {id face}, base.face? id = some face → face.direction = .output → moved id = id

def redirect (moved : PinId → PinId) (origin dest id : PinId) : PinId :=
  if id = origin then dest else moved id

section Rerouting

variable {base graph after : Graph} {source : NodeId} {moved : PinId → PinId}

theorem Rerouting.start (regular : base.Regular) : Rerouting base source id base where
  sound := regular.toSound
  grown := .refl regular
  target := fun different => (different rfl).elim
  links := by simp

theorem Rerouting.regular (rerouting : Rerouting base source moved graph) : graph.Regular :=
  rerouting.grown.regular

theorem Rerouting.extended (rerouting : Rerouting base source moved graph) : base.Extends graph :=
  rerouting.grown.extended

/-- The evaluator itself gets no new pins. -/
theorem Rerouting.owns_iff (rerouting : Rerouting base source moved graph)
    (began : source.index < base.nodes.size) {id : PinId} :
    graph.Owns source id ↔ base.Owns source id :=
  rerouting.extended.owns_iff rerouting.grown.pin began

theorem Rerouting.undisturbed (rerouting : Rerouting base source moved graph)
    (undisturbed : Undisturbed base source graph after) : Rerouting base source moved after where
  sound := rerouting.sound
  grown := rerouting.grown.trans undisturbed.toGrows
  target := by
    intro id different
    obtain ⟨face, dest, found, owner, destFound, new, direction⟩ := rerouting.target different
    exact ⟨face, dest, found, owner, undisturbed.extended.face?_eq destFound, new, direction⟩
  links := fun old => (undisturbed.links old).trans (rerouting.links old)

theorem Rerouting.moved_added (rerouting : Rerouting base source moved graph) {id : PinId}
    (different : moved id ≠ id) : Added base graph (moved id) := by
  obtain ⟨face, dest, found, owner, destFound, new, direction⟩ := rerouting.target different
  exact ⟨dest, destFound, new⟩

theorem Rerouting.moved_foreign (rerouting : Rerouting base source moved graph) {id : PinId}
    (foreign : ¬ base.Owns source id) : moved id = id := by
  apply Classical.byContradiction
  intro different
  obtain ⟨face, _, found, owner, _⟩ := rerouting.target different
  exact foreign ⟨face, found, owner⟩

/-- Only a pin that still has its links is at its old place. -/
theorem Rerouting.moved_eq_old_iff (rerouting : Rerouting base source moved graph)
    {id origin : PinId} (old : origin.index < base.pins.size) (stays : moved origin = origin) :
    moved id = origin ↔ id = origin := by
  constructor
  · intro same
    apply Classical.byContradiction
    intro different
    have away : moved id ≠ id := fun still => different (still.symm.trans same)
    have new := (rerouting.moved_added away).pinCount_le rerouting.sound rerouting.extended
    rw [same] at new
    exact Nat.not_lt_of_le new old
  · rintro rfl
    exact stays

theorem OutputsStay.start : OutputsStay base id :=
  fun _ _ => rfl

theorem OutputsStay.redirect {origin dest : PinId} {face : PinFace}
    (stay : OutputsStay base moved) (found : base.face? origin = some face)
    (input : face.direction = .input) : OutputsStay base (redirect moved origin dest) := by
  intro id other otherFound output
  unfold Graph.redirect
  split
  · next same =>
      rw [same, found] at otherFound
      cases otherFound
      rw [input] at output
      cases output
  · exact stay otherFound output

/-- While only inputs have been moved, no pin of `base` triggers or follows what was spawned. -/
theorem Rerouting.not_mem_links_of_continues (rerouting : Rerouting base source moved graph)
    (stay : OutputsStay base moved) {exec id : PinId}
    (continues : Continues base graph source exec) (old : id.index < base.pins.size) :
    exec ∉ graph.links id := by
  intro member
  obtain ⟨_, origin, originMember, same⟩ := (rerouting.links old).mp member
  have new := continues.added.pinCount_le rerouting.sound rerouting.extended
  have different : moved origin ≠ origin := by
    rw [same]
    rintro rfl
    obtain ⟨_, farFace, _, farFound, _⟩ := rerouting.sound.joinable originMember
    exact Nat.not_lt_of_le new (lt_size_of_face? farFound)
  obtain ⟨face, dest, found, _, destFound, _, direction⟩ := rerouting.target different
  obtain ⟨_, _, _, _, _, execFace, execFound, _, output, _⟩ := continues
  rw [same, execFound] at destFound
  cases destFound
  exact different (stay found (direction ▸ output))

variable {origin dest : PinId}

theorem Rerouting.transfer_retains (rerouting : Rerouting base source moved graph)
    (old : origin.index < base.pins.size) (frame : graph.SameFrame after)
    (regular : after.Regular)
    (links : ∀ {id far}, far ∈ after.links id ↔ id ≠ origin ∧ far ≠ origin ∧
      (far ∈ graph.links id ∨ id = dest ∧ far ∈ graph.links origin ∨
        far = dest ∧ id ∈ graph.links origin)) : Grows base source graph after := by
  refine .of_frame frame regular ?_
  intro id far feeds added member
  have away {other : PinId} (otherAdded : Added base graph other) : other ≠ origin := by
    rintro rfl
    exact Nat.not_lt_of_le (otherAdded.pinCount_le rerouting.sound rerouting.extended) old
  exact links.mpr ⟨away feeds.added, away added, .inl member⟩

theorem Rerouting.transfer (rerouting : Rerouting base source moved graph)
    {face destFace : PinFace} (found : base.face? origin = some face) (owner : face.owner = source)
    (stays : moved origin = origin) (destFound : graph.face? dest = some destFace)
    (new : base.nodes.size ≤ destFace.owner.index) (direction : destFace.direction = face.direction)
    (frame : graph.SameFrame after) (regular : after.Regular)
    (links : ∀ {id far}, far ∈ after.links id ↔ id ≠ origin ∧ far ≠ origin ∧
      (far ∈ graph.links id ∨ id = dest ∧ far ∈ graph.links origin ∨
        far = dest ∧ id ∈ graph.links origin)) :
    Rerouting base source (redirect moved origin dest) after where
  sound := rerouting.sound
  grown := rerouting.grown.trans
    (rerouting.transfer_retains (lt_size_of_face? found) frame regular links)
  target := by
    intro id different
    unfold redirect at different ⊢
    split at different
    · next same =>
        rw [if_pos same]
        exact ⟨face, destFace, same ▸ found, owner, (frame.face dest).trans destFound, new,
          direction⟩
    · next other =>
        rw [if_neg other]
        obtain ⟨face, dest, found, owner, destFound, rest⟩ := rerouting.target different
        exact ⟨face, dest, found, owner, (frame.face _).trans destFound, rest⟩
  links := by
    intro id far old
    have originOld := lt_size_of_face? found
    have destNew : base.pins.size ≤ dest.index :=
      Added.pinCount_le ⟨destFace, destFound, new⟩ rerouting.sound rerouting.extended
    have idNotDest : id ≠ dest := by
      rintro rfl
      exact Nat.not_lt_of_le destNew old
    have destNotOrigin : dest ≠ origin := by
      rintro rfl
      exact Nat.not_lt_of_le destNew originOld
    have back : id ∈ graph.links origin ↔ moved id = id ∧ origin ∈ base.links id := by
      rw [rerouting.regular.mem_links_comm, rerouting.links old]
      simp only [rerouting.moved_eq_old_iff originOld stays, exists_eq_right]
    have atOrigin {other : PinId} : moved other = origin ↔ other = origin :=
      rerouting.moved_eq_old_iff originOld stays
    rw [links, rerouting.links old, back]
    unfold redirect
    grind

end Rerouting

end Graph

end RigLowering
