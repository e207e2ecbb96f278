import RigLowering.Proofs.LinkTransfers

namespace RigLowering

namespace PinType

/-- A link joins pins of one category, unless one of them takes anything. -/
theorem category_of_feeds {hierarchy : ClassHierarchy} {output input : PinType}
    (feeds : output.feeds hierarchy input) :
    output.category = .wildcard ∨ input.category = .wildcard ∨
      output.category = input.category := by
  unfold PinType.feeds at feeds
  split at feeds
  · next wild => exact wild.elim .inl fun input => .inr (.inl input)
  · split at feeds
    · cases feeds
    · next agreeing =>
        rw [not_or, not_not, not_not] at agreeing
        exact .inr (.inr agreeing.2)

end PinType

namespace Graph

/-- The categories of two pins allow a link between them. -/
def Compatible (graph : Graph) (a b : PinId) : Prop :=
  ∀ face far, graph.face? a = some face → graph.face? b = some far →
    face.pinType.category = .wildcard ∨ far.pinType.category = .wildcard ∨
      face.pinType.category = far.pinType.category

theorem checkJoin_compatible {graph : Graph} {a b : PinId}
    (checked : graph.checkJoin a b = .ok ()) : graph.Compatible a b := by
  intro face far found farFound
  obtain ⟨forward, backward⟩ := checkJoin_fits checked
  obtain ⟨other, otherFar, otherFound, otherFarFound, directions, _⟩ := checkJoin_eq_ok checked
  rw [found] at otherFound
  rw [farFound] at otherFarFound
  cases otherFound
  cases otherFarFound
  cases direction : face.direction with
  | output => exact PinType.category_of_feeds (forward face far found farFound direction)
  | input =>
      have opposed := PinDirection.eq_opposite_of_ne directions
      rw [direction] at opposed
      have feeds := PinType.category_of_feeds (backward far face farFound found opposed)
      exact feeds.elim (fun wild => .inr (.inl wild)) fun others =>
        others.elim .inl fun same => .inr (.inr same.symm)

theorem Compatible.symm {graph : Graph} {a b : PinId} (compatible : graph.Compatible a b) :
    graph.Compatible b a := by
  intro far face farFound found
  rcases compatible face far found farFound with wild | wild | same
  · exact .inr (.inl wild)
  · exact .inl wild
  · exact .inr (.inr same.symm)

/-- The links of `origin` have come to the end of those of `dest`, in their order and none of them
twice. -/
structure LinksMoved (origin dest : PinId) (before after : Graph) : Prop where
  different : origin ≠ dest
  direction : ∃ face destFace, before.face? origin = some face ∧
    before.face? dest = some destFace ∧ destFace.direction = face.direction
  compatible : ∀ far ∈ before.links origin, before.Compatible dest far
  emptied : after.links origin = []
  collected : after.links dest =
    before.links dest ++ (before.links origin).filter (· ∉ before.links dest)
  elsewhere : ∀ {id}, id ≠ origin → id ≠ dest → id ∉ before.links origin →
    after.links id = before.links id

theorem LinksMoved.of_links {origin dest : PinId} {before after later : Graph}
    (moved : LinksMoved origin dest before after) (links : later.links = after.links) :
    LinksMoved origin dest before later where
  different := moved.different
  direction := moved.direction
  compatible := moved.compatible
  emptied := by rw [links, moved.emptied]
  collected := by rw [links, moved.collected]
  elsewhere := by
    intro id notOrigin notDest notListed
    rw [links, moved.elsewhere notOrigin notDest notListed]

end Graph

namespace Edit

open RigLowering.Graph

variable {before after : Graph} {a b : PinId}

theorem link_effect (linked : Yields (link a b) before () after) :
    before.Joinable a b ∧ before.Compatible a b ∧ before.SameFrame after ∧
      (b ∈ before.links a ∧ after = before ∨
        b ∉ before.links a ∧ ∀ id, after.links id =
          if id = a then before.links a ++ [b]
          else if id = b then before.links b ++ [a] else before.links id) := by
  obtain ⟨_, _, checked, _⟩ := yields_bind_iff.mp linked
  have compatible := checkJoin_compatible (yields_query_iff.mp checked).2
  unfold Yields at linked
  rcases link_cases a b before with ⟨error, failed⟩ | ⟨joinable, ⟨member, same⟩ | ⟨fresh, joined⟩⟩
  · rw [failed] at linked
    cases linked
  · rw [same] at linked
    cases linked
    exact ⟨joinable, compatible, .refl _, .inl ⟨member, rfl⟩⟩
  · rw [joined] at linked
    cases linked
    exact ⟨joinable, compatible, before.join_sameFrame a b, .inr ⟨fresh, links_join joinable⟩⟩

theorem link_elsewhere (linked : Yields (link a b) before () after) {id : PinId} (first : id ≠ a)
    (second : id ≠ b) : after.links id = before.links id := by
  obtain ⟨_, _, _, ⟨_, rfl⟩ | ⟨_, links⟩⟩ := link_effect linked
  · rfl
  · rw [links, if_neg first, if_neg second]

/-- A pin without links gets just the one that is made, and the other end lists it last. -/
theorem link_unlinked (sound : before.Sound) (linked : Yields (link a b) before () after)
    (unlinked : before.links b = []) :
    after.links a = before.links a ++ [b] ∧ after.links b = [a] := by
  obtain ⟨joinable, _, _, ⟨member, _⟩ | ⟨_, links⟩⟩ := link_effect linked
  · rw [sound.mem_links_comm, unlinked] at member
    cases member
  · rw [links, links, if_pos rfl, if_neg joinable.ne.symm, if_pos rfl, unlinked]
    exact ⟨rfl, rfl⟩

section Transfer

variable {origin dest : PinId}

/-- What becomes of all link lists. -/
theorem transferLinks_lists (regular : before.Regular)
    (moved : Yields (transferLinks origin dest) before () after) :
    origin = dest ∧ after = before ∨
      before.SameFrame after ∧ LinksMoved origin dest before after := by
  by_cases same : origin = dest
  · unfold transferLinks at moved
    rw [if_pos same] at moved
    exact .inl ⟨same, (yields_pure_iff.mp moved).2⟩
  obtain ⟨frame, ⟨face, destFace, found, destFound, direction⟩, _⟩ :=
    yields_transferLinks regular.toSound same moved
  have linkable := (succeeds_transferLinks_iff same found destFound direction).mp ⟨(), after, moved⟩
  obtain ⟨source, live, rfl, links⟩ := exists_pin?_of_face? found
  obtain ⟨target, destLive, rfl, _⟩ := exists_pin?_of_face? destFound
  obtain ⟨later, _, ⟨done, handed⟩ | ⟨_, _, _, _, failed, _⟩⟩ :=
    transferLinks_cases regular same live destLive direction.symm
  · cases done.symm.trans moved
    rw [links] at handed
    refine .inr ⟨frame, same, ⟨_, _, found, destFound, direction⟩, ?_, handed.remaining,
      handed.collected, fun notOrigin notDest notListed =>
        handed.elsewhere _ notOrigin notDest notListed List.not_mem_nil⟩
    exact fun far member =>
      checkJoin_compatible (checkJoin_eq_ok_iff.mpr (linkable far member))
  · exact nomatch failed.symm.trans moved

end Transfer

private theorem forM_unlinkPin_lists {ids : List PinId} (sound : before.Sound)
    (unlinked : Yields (ids.forM unlinkPin) before () after) (id : PinId) :
    after.links id = if id ∈ ids then [] else (before.links id).filter (· ∉ ids) := by
  induction ids generalizing before with
  | nil =>
      cases unlinked
      simp
  | cons head rest ih =>
      obtain ⟨_, middle, first, others⟩ := yields_bind_iff.mp unlinked
      obtain ⟨_, middleSound, _⟩ := yields_unlinkPin sound first
      have links : ∀ other, middle.links other =
          if other = head then [] else (before.links other).filter (· ≠ head) := by
        unfold Yields at first
        rcases unlinkPin_cases sound head with ⟨_, _, failed⟩ | ⟨_, _, _, done, _, links⟩
        · exact (nomatch failed.symm.trans first)
        · cases done.symm.trans first
          exact links
      rw [ih middleSound others, links]
      by_cases same : id = head
      · simp [same]
      · simp only [same, if_false, List.mem_cons, false_or, List.filter_filter]
        split
        · rfl
        · apply List.filter_congr
          intro far _
          rw [← Bool.decide_and]
          exact decide_eq_decide.mpr (by rw [not_or, and_comm])

/-- A node is left without links, and whatever was not linked to it keeps its own. -/
theorem unlinkNode_lists {node : NodeId} (sound : before.Sound)
    (unlinked : Yields (unlinkNode node) before () after) :
    before.SameFrame after ∧ (∀ id, before.Owns node id → after.links id = []) ∧
      ∀ id, ¬ before.Owns node id → (∀ far ∈ before.links id, ¬ before.Owns node far) →
        after.links id = before.links id := by
  obtain ⟨frame, links⟩ := yields_unlinkNode sound unlinked
  obtain ⟨data, _, read, pinsUnlinked⟩ := yields_bind_iff.mp unlinked
  obtain ⟨rfl, found⟩ := yields_node_iff.mp read
  refine ⟨frame, ?_, ?_⟩
  · intro id owned
    exact List.eq_nil_iff_forall_not_mem.mpr fun far member => (links.mp member).2.1 owned
  · intro id foreign farForeign
    rw [forM_unlinkPin_lists sound pinsUnlinked, if_neg (mt (sound.mem_pins_iff found).mp foreign),
      List.filter_eq_self]
    intro far member
    exact decide_eq_true (mt (sound.mem_pins_iff found).mp (farForeign far member))

end Edit

end RigLowering
