import RigLowering.Proofs.LinkEffects

namespace RigLowering

namespace Graph

/-- The pin belongs to the node. -/
def Owns (graph : Graph) (node : NodeId) (id : PinId) : Prop :=
  ∃ face, graph.face? id = some face ∧ face.owner = node

instance (graph : Graph) (node : NodeId) (id : PinId) : Decidable (graph.Owns node id) :=
  decidable_of_iff ((graph.face? id).any (·.owner = node)) (by simp [Owns, Option.any_eq_true])

theorem owns_iff_of_face? {graph : Graph} {node : NodeId} {id : PinId} {face : PinFace}
    (found : graph.face? id = some face) : graph.Owns node id ↔ face.owner = node := by
  constructor
  · rintro ⟨other, otherFound, owner⟩
    cases found.symm.trans otherFound
    exact owner
  · exact fun owner => ⟨face, found, owner⟩

theorem owns_iff_of_pin? {graph : Graph} {node : NodeId} {id : PinId} {pin : Pin}
    (live : graph.pin? id = some pin) : graph.Owns node id ↔ pin.owner = node :=
  owns_iff_of_face? (face?_of_pin? live)

theorem Owns.unique {graph : Graph} {node other : NodeId} {id : PinId} (owns : graph.Owns node id)
    (otherwise : graph.Owns other id) : node = other := by
  obtain ⟨face, found, rfl⟩ := owns
  exact (owns_iff_of_face? found).mp otherwise

theorem Owns.lt_size {graph : Graph} {node : NodeId} {id : PinId} (owned : graph.Owns node id) :
    id.index < graph.pins.size := by
  obtain ⟨_, found, _⟩ := owned
  exact lt_size_of_face? found

theorem Sound.not_owns_of_mem_links {graph : Graph} (sound : graph.Sound) {node : NodeId}
    {id far : PinId} (member : far ∈ graph.links id) (owned : graph.Owns node id) :
    ¬ graph.Owns node far := by
  rintro ⟨farFace, farFound, farOwner⟩
  obtain ⟨face, found, owner⟩ := owned
  obtain ⟨other, farOther, otherFound, farOtherFound, _, owners⟩ := sound.joinable member
  rw [found] at otherFound
  rw [farFound] at farOtherFound
  cases otherFound
  cases farOtherFound
  exact owners (farOwner.trans owner.symm)

theorem Sound.mem_pins_iff {graph : Graph} (sound : graph.Sound) {id : NodeId} {node : Node}
    (found : graph.node? id = some node) {pin : PinId} : pin ∈ node.pins ↔ graph.Owns id pin := by
  constructor
  · exact sound.listed found
  · rintro ⟨face, faceFound, rfl⟩
    obtain ⟨owner, ownerFound, member⟩ := sound.owned faceFound
    rw [found] at ownerFound
    cases ownerFound
    exact member

end Graph

namespace Edit

open RigLowering.Graph

theorem yields_query_iff {α : Type} {answer : Graph → Except Error α} {before after : Graph}
    {value : α} :
    Yields (query answer) before value after ↔ after = before ∧ answer before = .ok value := by
  constructor
  · intro yielded
    obtain ⟨answered, rfl⟩ := Prod.ext_iff.mp yielded
    exact ⟨rfl, answered⟩
  · rintro ⟨rfl, answered⟩
    exact Prod.ext answered rfl

theorem yields_node_iff {id : NodeId} {before after : Graph} {node : Node} :
    Yields (Edit.node id) before node after ↔ after = before ∧ before.node? id = some node := by
  rw [Edit.node, yields_query_iff, Graph.node]
  cases before.node? id <;> simp

theorem yields_pin_iff {id : PinId} {before after : Graph} {pin : Pin} :
    Yields (Edit.pin id) before pin after ↔ after = before ∧ before.pin? id = some pin := by
  rw [Edit.pin, yields_query_iff, Graph.pin]
  cases before.pin? id <;> simp

private theorem forM_unlink_apply (id : PinId) (fars : List PinId) (graph : Graph)
    (live : ∀ far ∈ fars, ∃ face, graph.face? far = some face) :
    ∃ after, fars.forM (fun far => modifyPin far (·.unlink id)) graph = (.ok (), after) ∧
      graph.SameFrame after ∧
      ∀ other, after.links other =
        (graph.links other).filter fun listed => ¬ (other ∈ fars ∧ listed = id) := by
  induction fars generalizing graph with
  | nil =>
      exact ⟨graph, rfl, .refl _, fun other => (List.filter_eq_self.mpr (by simp)).symm⟩
  | cons far rest ih =>
      obtain ⟨face, found⟩ := live far (by simp)
      obtain ⟨pin, pinLive, _, _⟩ := exists_pin?_of_face? found
      have frame := graph.unlink_sameFrame far id
      obtain ⟨after, applied, restFrame, links⟩ := ih (graph.changePin far (·.unlink id))
        fun other member => frame.face other ▸ live other (by simp [member])
      refine ⟨after, ?_, frame.trans restFrame, ?_⟩
      · change (modifyPin far (·.unlink id) >>= fun _ => rest.forM _) graph = _
        rw [bind_apply, modifyPin_apply, pinLive]
        exact applied
      · intro other
        rw [links, links_changePin_unlink, List.filter_filter]
        apply List.filter_congr
        intro listed _
        rw [← Bool.decide_and]
        exact decide_eq_decide.mpr (by grind)

theorem unlinkPin_cases {graph : Graph} (sound : graph.Sound) (id : PinId) :
    (∃ error, graph.face? id = none ∧ unlinkPin id graph = (.error error, graph)) ∨
      ∃ face after, graph.face? id = some face ∧ unlinkPin id graph = (.ok (), after) ∧
        graph.SameFrame after ∧ ∀ other, after.links other =
          if other = id then [] else (graph.links other).filter (· ≠ id) := by
  unfold unlinkPin
  rw [bind_apply, pin_apply, Graph.pin]
  cases live : graph.pin? id with
  | none => exact .inl ⟨_, by rw [face?, live]; rfl, rfl⟩
  | some pin =>
      right
      simp only
      rw [bind_apply, modifyPin_apply, live, ← links_of_pin? live]
      have frame := graph.unlinkAll_sameFrame id
      obtain ⟨after, applied, restFrame, links⟩ :=
        forM_unlink_apply id (graph.links id) (graph.changePin id (·.unlinkAll)) (by
          intro far member
          obtain ⟨_, farFace, _, farFound, _⟩ := sound.joinable member
          exact ⟨farFace, (frame.face far).trans farFound⟩)
      refine ⟨pin.face, after, face?_of_pin? live, applied, frame.trans restFrame, ?_⟩
      intro other
      rw [links, links_changePin_unlinkAll]
      split
      · rfl
      · apply List.filter_congr
        intro listed member
        apply decide_eq_decide.mpr
        have back := sound.mem_links_comm.mp member
        grind

theorem unlinkPin_frame {graph : Graph} (sound : graph.Sound) (id : PinId) :
    graph.SameFrame (unlinkPin id graph).2 := by
  rcases unlinkPin_cases sound id with ⟨_, _, failed⟩ | ⟨_, _, _, done, frame, _⟩
  · rw [failed]
    exact .refl graph
  · rw [done]
    exact frame

/-- What is left once the links of some pins are gone. -/
theorem mem_links_of_unlinked {before after : Graph} {id : PinId}
    (links : ∀ other, after.links other =
      if other = id then [] else (before.links other).filter (· ≠ id)) {other far : PinId} :
    far ∈ after.links other ↔ far ∈ before.links other ∧ other ≠ id ∧ far ≠ id := by
  rw [links]
  split
  · next same => simp [same]
  · next different => simp [different]

private theorem sound_of_unlinked {before after : Graph} {id : PinId} (sound : before.Sound)
    (frame : before.SameFrame after)
    (links : ∀ other, after.links other =
      if other = id then [] else (before.links other).filter (· ≠ id)) : after.Sound := by
  apply sound.relink frame
  · intro other far member
    rw [mem_links_of_unlinked links] at member ⊢
    exact ⟨sound.mem_links_comm.mp member.1, member.2.2, member.2.1⟩
  · intro other far member
    exact sound.joinable ((mem_links_of_unlinked links).mp member).1

theorem unlinkPin_keeps_sound (id : PinId) : Keeps Sound (unlinkPin id) := by
  intro graph sound
  rcases unlinkPin_cases sound id with ⟨_, _, failed⟩ | ⟨_, after, _, unlinked, frame, links⟩
  · rw [failed]
    exact sound
  · rw [unlinked]
    exact sound_of_unlinked sound frame links

theorem unlinkPin_keeps_regular (id : PinId) : Keeps Regular (unlinkPin id) := by
  intro graph regular
  rcases unlinkPin_cases regular.toSound id with
    ⟨_, _, failed⟩ | ⟨_, after, _, unlinked, frame, links⟩
  · rw [failed]
    exact regular
  · rw [unlinked]
    apply regular.relink frame (sound_of_unlinked regular.toSound frame links)
    intro other
    rw [links]
    split
    · exact List.nodup_nil
    · exact (regular.linksNodup other).filter _

theorem yields_unlinkPin {id : PinId} {before after : Graph} (sound : before.Sound)
    (unlinked : Yields (unlinkPin id) before () after) :
    before.SameFrame after ∧ after.Sound ∧ ∀ {other far}, far ∈ after.links other ↔
      far ∈ before.links other ∧ other ≠ id ∧ far ≠ id := by
  have kept := unlinkPin_keeps_sound id before sound
  unfold Yields at unlinked
  rw [unlinked] at kept
  rcases unlinkPin_cases sound id with ⟨_, _, failed⟩ | ⟨_, _, _, done, frame, links⟩
  · rw [failed] at unlinked
    cases unlinked
  · rw [done] at unlinked
    cases unlinked
    exact ⟨frame, kept, mem_links_of_unlinked links⟩

theorem yields_forM_unlinkPin {ids : List PinId} {before after : Graph} (sound : before.Sound)
    (unlinked : Yields (ids.forM unlinkPin) before () after) :
    before.SameFrame after ∧ ∀ {other far}, far ∈ after.links other ↔
      far ∈ before.links other ∧ other ∉ ids ∧ far ∉ ids := by
  induction ids generalizing before with
  | nil =>
      cases unlinked
      exact ⟨.refl _, by simp⟩
  | cons id rest ih =>
      obtain ⟨_, middle, first, others⟩ := yields_bind_iff.mp unlinked
      obtain ⟨frame, middleSound, middleLinks⟩ := yields_unlinkPin sound first
      obtain ⟨restFrame, links⟩ := ih middleSound others
      refine ⟨frame.trans restFrame, ?_⟩
      intro other far
      rw [links, middleLinks]
      simp only [List.mem_cons]
      grind

theorem yields_unlinkNode {node : NodeId} {before after : Graph} (sound : before.Sound)
    (unlinked : Yields (unlinkNode node) before () after) :
    before.SameFrame after ∧ ∀ {id far}, far ∈ after.links id ↔
      far ∈ before.links id ∧ ¬ before.Owns node id ∧ ¬ before.Owns node far := by
  obtain ⟨data, middle, read, pinsUnlinked⟩ := yields_bind_iff.mp unlinked
  obtain ⟨rfl, found⟩ := yields_node_iff.mp read
  obtain ⟨frame, links⟩ := yields_forM_unlinkPin sound pinsUnlinked
  refine ⟨frame, ?_⟩
  intro id far
  rw [links, sound.mem_pins_iff found, sound.mem_pins_iff found]

private theorem yields_forM_transfer {origin dest : PinId} {fars : List PinId}
    {before after : Graph} (sound : before.Sound) (absent : origin ∉ fars)
    (moved : Yields (fars.forM fun far => do unlink origin far; link dest far) before () after) :
    before.SameFrame after ∧ ∀ {id far}, far ∈ after.links id ↔
      far ∈ before.links id ∧ ¬ (id = origin ∧ far ∈ fars) ∧ ¬ (far = origin ∧ id ∈ fars) ∨
        id = dest ∧ far ∈ fars ∨ far = dest ∧ id ∈ fars := by
  induction fars generalizing before with
  | nil =>
      cases moved
      exact ⟨.refl _, by simp⟩
  | cons head rest ih =>
      obtain ⟨_, middle, first, others⟩ := yields_bind_iff.mp moved
      obtain ⟨_, parted, unlinked, linked⟩ := yields_bind_iff.mp first
      obtain rfl := yields_unlink unlinked
      have partSound := sound.part origin head
      obtain ⟨linkFrame, joinable, linkLinks⟩ := yields_link partSound linked
      obtain ⟨restFrame, links⟩ := ih ((link_keeps_sound _ _).holds_after linked partSound)
        (fun member => absent (by simp [member])) others
      refine ⟨((before.part_sameFrame origin head).trans linkFrame).trans restFrame, ?_⟩
      intro id far
      rw [links, linkLinks, mem_links_part]
      simp only [List.mem_cons] at absent ⊢
      grind

theorem yields_transferLinks {origin dest : PinId} {before after : Graph} (sound : before.Sound)
    (different : origin ≠ dest) (moved : Yields (transferLinks origin dest) before () after) :
    before.SameFrame after ∧
      (∃ face destFace, before.face? origin = some face ∧ before.face? dest = some destFace ∧
        destFace.direction = face.direction) ∧
      ∀ {id far}, far ∈ after.links id ↔
        id ≠ origin ∧ far ≠ origin ∧
          (far ∈ before.links id ∨ id = dest ∧ far ∈ before.links origin ∨
            far = dest ∧ id ∈ before.links origin) := by
  unfold transferLinks at moved
  rw [if_neg different] at moved
  obtain ⟨source, _, readSource, afterSource⟩ := yields_bind_iff.mp moved
  obtain ⟨rfl, sourceLive⟩ := yields_pin_iff.mp readSource
  obtain ⟨target, _, readTarget, afterTarget⟩ := yields_bind_iff.mp afterSource
  obtain ⟨rfl, targetLive⟩ := yields_pin_iff.mp readTarget
  split at afterTarget
  · next same =>
      rw [← links_of_pin? sourceLive] at afterTarget
      have absent {id : PinId} (member : id ∈ Graph.links _ origin) : id ≠ origin :=
        (sound.joinable member).ne.symm
      obtain ⟨frame, links⟩ :=
        yields_forM_transfer sound (fun member => absent member rfl) afterTarget
      refine ⟨frame, ⟨_, _, face?_of_pin? sourceLive, face?_of_pin? targetLive, same.symm⟩, ?_⟩
      intro id far
      rw [links]
      have symmetric (id far : PinId) := @sound.mem_links_comm _ id far
      grind
  · exact (not_yields_throw afterTarget).elim

end Edit

end RigLowering
