import RigLowering.Proofs.LinkTyping

namespace RigLowering

section Steps

variable {σ α β : Type}

/-- From `before` the step succeeds. -/
def Succeeds (step : ExceptT Error (StateM σ) α) (before : σ) : Prop :=
  ∃ value after, Yields step before value after

variable {first : ExceptT Error (StateM σ) α} {next : α → ExceptT Error (StateM σ) β} {before : σ}

theorem succeeds_pure (value : α) :
    Succeeds (pure value : ExceptT Error (StateM σ) α) before :=
  ⟨value, before, rfl⟩

theorem succeeds_bind_iff :
    Succeeds (first >>= next) before ↔
      ∃ value middle, Yields first before value middle ∧ Succeeds (next value) middle := by
  constructor
  · rintro ⟨result, after, yielded⟩
    obtain ⟨value, middle, firstYielded, nextYielded⟩ := yields_bind_iff.mp yielded
    exact ⟨value, middle, firstYielded, result, after, nextYielded⟩
  · rintro ⟨value, middle, firstYielded, result, after, nextYielded⟩
    exact ⟨result, after, yields_bind_iff.mpr ⟨value, middle, firstYielded, nextYielded⟩⟩

/-- What is known of every success of the first step may be used for the second. -/
theorem Succeeds.bind (succeeds : Succeeds first before)
    (nextSucceeds : ∀ value middle, Yields first before value middle →
      Succeeds (next value) middle) : Succeeds (first >>= next) before := by
  obtain ⟨value, middle, yielded⟩ := succeeds
  exact succeeds_bind_iff.mpr ⟨value, middle, yielded, nextSucceeds value middle yielded⟩

end Steps

namespace Graph

/-- The output can be linked to the input. -/
structure Mates (graph : Graph) (output input : PinId) : Prop where
  faces : ∃ face far, graph.face? output = some face ∧ graph.face? input = some far ∧
    face.direction = .output ∧ far.direction = .input ∧ face.owner ≠ far.owner ∧
      face.pinType.feeds graph.hierarchy far.pinType

/-- A link between the two pins can be made. -/
def Linkable (graph : Graph) (a b : PinId) : Prop :=
  graph.Mates a b ∨ graph.Mates b a

variable {graph before after : Graph} {a b output input : PinId}

theorem Mates.of_frame (mates : before.Mates output input) (frame : before.SameFrame after)
    (hierarchy : after.hierarchy = before.hierarchy) : after.Mates output input := by
  obtain ⟨face, far, found, farFound, rest⟩ := mates.faces
  exact ⟨face, far, (frame.face _).trans found, (frame.face _).trans farFound, hierarchy ▸ rest⟩

theorem SameFrame.symm (frame : before.SameFrame after) : after.SameFrame before where
  nodeCount := frame.nodeCount.symm
  pinCount := frame.pinCount.symm
  node := fun id => (frame.node id).symm
  face := fun id => (frame.face id).symm

theorem SameFrame.linkable_iff (frame : before.SameFrame after)
    (hierarchy : after.hierarchy = before.hierarchy) :
    after.Linkable a b ↔ before.Linkable a b := by
  constructor
  · exact Or.imp (·.of_frame frame.symm hierarchy.symm) (·.of_frame frame.symm hierarchy.symm)
  · exact Or.imp (·.of_frame frame hierarchy) (·.of_frame frame hierarchy)

theorem Linkable.joinable (linkable : graph.Linkable a b) : graph.Joinable a b := by
  rcases linkable with ⟨face, far, found, farFound, output, input, apart, _⟩ |
    ⟨face, far, found, farFound, output, input, apart, _⟩
  · exact ⟨face, far, found, farFound, by rw [output, input]; decide, apart.symm⟩
  · exact ⟨far, face, farFound, found, by rw [output, input]; decide, apart⟩

theorem Mates.checkJoin_eq_ok (mates : graph.Mates output input) :
    graph.checkJoin output input = .ok () ∧ graph.checkJoin input output = .ok () := by
  obtain ⟨face, far, found, farFound, directed, farDirected, apart, feeds⟩ := mates.faces
  obtain ⟨pin, live, rfl, _⟩ := exists_pin?_of_face? found
  obtain ⟨farPin, farLive, rfl, _⟩ := exists_pin?_of_face? farFound
  have output : pin.direction = .output := directed
  have input : farPin.direction = .input := farDirected
  have away : pin.owner ≠ farPin.owner := apart
  have checked := checkTypes_eq_ok_iff.mpr feeds
  constructor
  · refine bind_eq_ok_iff.mpr ⟨pin, pin_eq_ok_iff.mpr live, bind_eq_ok_iff.mpr
      ⟨farPin, pin_eq_ok_iff.mpr farLive, ?_⟩⟩
    rw [if_neg (by simp [output, input]), if_neg away, output]
    exact checked
  · refine bind_eq_ok_iff.mpr ⟨farPin, pin_eq_ok_iff.mpr farLive, bind_eq_ok_iff.mpr
      ⟨pin, pin_eq_ok_iff.mpr live, ?_⟩⟩
    rw [if_neg (by simp [output, input]), if_neg away.symm, input]
    exact checked

/-- The check before a link refuses just the pins that cannot be linked. -/
theorem checkJoin_eq_ok_iff : graph.checkJoin a b = .ok () ↔ graph.Linkable a b := by
  constructor
  · intro checked
    obtain ⟨face, far, found, farFound, directions, owners⟩ := checkJoin_eq_ok checked
    obtain ⟨forward, backward⟩ := checkJoin_fits checked
    have opposed := PinDirection.eq_opposite_of_ne directions
    cases toward : face.direction with
    | output =>
        rw [toward] at opposed
        exact .inl ⟨face, far, found, farFound, toward, opposed, owners.symm,
          forward face far found farFound toward⟩
    | input =>
        rw [toward] at opposed
        exact .inr ⟨far, face, farFound, found, opposed, toward, owners,
          backward far face farFound found opposed⟩
  · rintro (forward | backward)
    · exact forward.checkJoin_eq_ok.1
    · exact backward.checkJoin_eq_ok.2

/-- Between pins that are there nothing but a refusal is in the way of a link. -/
theorem checkJoin_eq_ok_or_refused (live : ∃ face, graph.face? a = some face)
    (farLive : ∃ face, graph.face? b = some face) :
    graph.checkJoin a b = .ok () ∨
      ∃ error, graph.checkJoin a b = .error error ∧ error.isRecoverable := by
  obtain ⟨_, found⟩ := live
  obtain ⟨_, farFound⟩ := farLive
  obtain ⟨first, firstLive, _⟩ := exists_pin?_of_face? found
  obtain ⟨second, secondLive, _⟩ := exists_pin?_of_face? farFound
  have types (output input : Pin) : graph.checkTypes output input = .ok () ∨
      ∃ error, graph.checkTypes output input = .error error ∧ error.isRecoverable := by
    unfold checkTypes
    split
    · exact .inl rfl
    · exact .inr ⟨_, rfl, rfl⟩
  unfold checkJoin
  rw [pin_eq_ok_iff.mpr firstLive, pin_eq_ok_iff.mpr secondLive]
  change (if first.direction = second.direction then _ else _) = _ ∨ ∃ error,
    (if first.direction = second.direction then _ else _) = _ ∧ _
  split
  · exact .inr ⟨_, rfl, rfl⟩
  · split
    · exact .inr ⟨_, rfl, rfl⟩
    · cases first.direction with
      | input => exact types second first
      | output => exact types first second

/-- A pin of the same type can take the place of one end of a link. -/
theorem TypedAt.linkable {id far dest : PinId} {face farFace destFace : PinFace}
    (typed : graph.TypedAt id) (sound : graph.Sound) (member : far ∈ graph.links id)
    (found : graph.face? id = some face) (farFound : graph.face? far = some farFace)
    (destFound : graph.face? dest = some destFace) (direction : destFace.direction = face.direction)
    (pinType : destFace.pinType = face.pinType) (apart : farFace.owner ≠ destFace.owner) :
    graph.Linkable dest far := by
  obtain ⟨forward, backward⟩ := typed far member
  obtain ⟨_, _, sameFound, sameFarFound, directions, _⟩ := sound.joinable member
  cases found.symm.trans sameFound
  cases farFound.symm.trans sameFarFound
  have opposed := PinDirection.eq_opposite_of_ne directions
  cases toward : face.direction with
  | output =>
      rw [toward] at opposed
      refine .inl ⟨destFace, farFace, destFound, farFound, direction.trans toward, opposed,
        apart.symm, ?_⟩
      rw [pinType]
      exact forward face farFace found farFound toward
  | input =>
      rw [toward] at opposed
      refine .inr ⟨farFace, destFace, farFound, destFound, opposed, direction.trans toward,
        apart, ?_⟩
      rw [pinType]
      exact backward farFace face farFound found opposed

end Graph

namespace Edit

open RigLowering.Graph

variable {graph : Graph} {a b origin dest : PinId}

theorem yields_modifyPin_of_live {face : PinFace} (found : graph.face? a = some face)
    (change : Pin → Pin) : Yields (modifyPin a change) graph () (graph.changePin a change) := by
  obtain ⟨pin, live, _⟩ := exists_pin?_of_face? found
  rw [Yields, modifyPin_apply, live]

theorem yields_unlink_of_live {face far : PinFace} (found : graph.face? a = some face)
    (farFound : graph.face? b = some far) : Yields (unlink a b) graph () (graph.part a b) := by
  have farStays := (graph.unlink_sameFrame a b).face b
  exact yields_bind_iff.mpr ⟨(), _, yields_modifyPin_of_live found _,
    yields_modifyPin_of_live (farStays.trans farFound) _⟩

theorem succeeds_link_iff : Succeeds (link a b) graph ↔ graph.Linkable a b := by
  constructor
  · rintro ⟨_, _, linked⟩
    obtain ⟨_, _, checked, _⟩ := yields_bind_iff.mp linked
    exact checkJoin_eq_ok_iff.mp (yields_query_iff.mp checked).2
  · intro linkable
    obtain ⟨face, far, found, farFound, _⟩ := linkable.joinable
    obtain ⟨pin, live, _⟩ := exists_pin?_of_face? found
    have farStays := (graph.link_sameFrame a b).face b
    refine succeeds_bind_iff.mpr ⟨(), graph, yields_query_iff.mpr
      ⟨rfl, checkJoin_eq_ok_iff.mpr linkable⟩, succeeds_bind_iff.mpr
        ⟨pin, graph, yields_pin_iff.mpr ⟨rfl, live⟩, ?_⟩⟩
    split
    · exact succeeds_pure ()
    · exact succeeds_bind_iff.mpr ⟨(), _, yields_modifyPin_of_live found _, (), _,
        yields_modifyPin_of_live (farStays.trans farFound) _⟩

/-- Between pins that are there a link is made or refused. -/
theorem succeeds_link_or_refused (live : ∃ face, graph.face? a = some face)
    (farLive : ∃ face, graph.face? b = some face) :
    Succeeds (link a b) graph ∨
      ∃ error, link a b graph = (.error error, graph) ∧ error.isRecoverable := by
  rcases checkJoin_eq_ok_or_refused live farLive with checked | ⟨error, refused, recoverable⟩
  · exact .inl (succeeds_link_iff.mpr (checkJoin_eq_ok_iff.mp checked))
  · refine .inr ⟨error, ?_, recoverable⟩
    unfold link
    rw [bind_apply, query_apply, refused]

/-- Neither pin types nor the hierarchy change on the way, so whether a link can be made at the new
end can be told before the first one is moved. -/
private theorem succeeds_forM_transfer_iff {fars : List PinId}
    (live : ∃ face, graph.face? origin = some face) :
    Succeeds (fars.forM fun far => do unlink origin far; link dest far) graph ↔
      ∀ far ∈ fars, graph.Linkable dest far := by
  induction fars generalizing graph with
  | nil => exact ⟨fun _ far member => (nomatch member), fun _ => succeeds_pure _⟩
  | cons far rest ih =>
      have partFrame := graph.part_sameFrame origin far
      have onward {middle : Graph} (linked : Yields (link dest far) (graph.part origin far) ()
          middle) : Succeeds (rest.forM fun far => do unlink origin far; link dest far) middle ↔
            ∀ far ∈ rest, graph.Linkable dest far := by
        have linkFrame := link_frame dest far (graph.part origin far)
        rw [show link dest far _ = _ from linked] at linkFrame
        have frame := partFrame.trans linkFrame
        have hierarchy : middle.hierarchy = graph.hierarchy :=
          ((kept_hierarchy graph.hierarchy).link dest far).holds_after linked rfl
        rw [ih (by rw [frame.face]; exact live)]
        exact forall₂_congr fun other _ => frame.linkable_iff hierarchy
      rw [List.forall_mem_cons]
      constructor
      · intro succeeds
        obtain ⟨_, middle, moved, others⟩ := succeeds_bind_iff.mp succeeds
        obtain ⟨_, parted, unlinked, linked⟩ := yields_bind_iff.mp moved
        obtain rfl := yields_unlink unlinked
        refine ⟨?_, (onward linked).mp others⟩
        exact (partFrame.linkable_iff rfl).mp (succeeds_link_iff.mp ⟨_, _, linked⟩)
      · rintro ⟨linkable, others⟩
        obtain ⟨face, found⟩ := live
        obtain ⟨_, farFace, _, farFound, _⟩ := linkable.joinable
        obtain ⟨⟨⟩, middle, linked⟩ :=
          succeeds_link_iff.mpr ((partFrame.linkable_iff rfl).mpr linkable)
        refine succeeds_bind_iff.mpr ⟨(), middle, ?_, (onward linked).mpr others⟩
        exact yields_bind_iff.mpr ⟨(), _, yields_unlink_of_live found farFound, linked⟩

/-- Links can be moved just where each could be made at its new end as well. -/
theorem succeeds_transferLinks_iff {face destFace : PinFace} (different : origin ≠ dest)
    (found : graph.face? origin = some face) (destFound : graph.face? dest = some destFace)
    (direction : destFace.direction = face.direction) :
    Succeeds (transferLinks origin dest) graph ↔
      ∀ far ∈ graph.links origin, graph.Linkable dest far := by
  obtain ⟨pin, live, rfl, _⟩ := exists_pin?_of_face? found
  obtain ⟨destPin, destLive, rfl, _⟩ := exists_pin?_of_face? destFound
  have same : pin.direction = destPin.direction := direction.symm
  rw [← succeeds_forM_transfer_iff ⟨_, found⟩, links_of_pin? live]
  unfold transferLinks
  rw [if_neg different]
  constructor
  · intro succeeds
    obtain ⟨source, _, read, afterSource⟩ := succeeds_bind_iff.mp succeeds
    obtain ⟨rfl, sourceLive⟩ := yields_pin_iff.mp read
    cases live.symm.trans sourceLive
    obtain ⟨target, _, readTarget, afterTarget⟩ := succeeds_bind_iff.mp afterSource
    obtain ⟨rfl, targetLive⟩ := yields_pin_iff.mp readTarget
    cases destLive.symm.trans targetLive
    rwa [if_pos same] at afterTarget
  · intro moves
    refine succeeds_bind_iff.mpr ⟨pin, graph, yields_pin_iff.mpr ⟨rfl, live⟩,
      succeeds_bind_iff.mpr ⟨destPin, graph, yields_pin_iff.mpr ⟨rfl, destLive⟩, ?_⟩⟩
    rwa [if_pos same]

theorem transferLinks_keeps_frame {graph : Graph} (origin dest : PinId) :
    Keeps graph.SameFrame (transferLinks origin dest) :=
  keeps_transferLinks (fun a b _ frame => frame.trans (unlink_frame a b _))
    (fun a b _ frame => frame.trans (link_frame a b _)) origin dest

end Edit

namespace Pass

open RigLowering.Graph

variable {before : PassState} {origin dest : PinId}

theorem succeeds_edit_iff {α : Type} {change : Edit α} :
    Succeeds (edit change) before ↔ Succeeds change before.graph := by
  constructor
  · rintro ⟨value, after, yielded⟩
    exact ⟨value, after.graph, yields_edit yielded⟩
  · rintro ⟨value, graph, yielded⟩
    refine ⟨value, { before with graph }, ?_⟩
    rw [Yields, show edit change before =
      ((change before.graph).1, { before with graph := (change before.graph).2 }) from rfl, yielded]

theorem succeeds_link_iff (a b : PinId) :
    Succeeds (edit (.link a b)) before ↔ before.graph.Linkable a b :=
  succeeds_edit_iff.trans Edit.succeeds_link_iff

theorem succeeds_transferPin_iff {face destFace : PinFace} (different : origin ≠ dest)
    (found : before.graph.face? origin = some face)
    (destFound : before.graph.face? dest = some destFace)
    (direction : destFace.direction = face.direction) :
    Succeeds (transferPin origin dest) before ↔
      ∀ far ∈ before.graph.links origin, before.graph.Linkable dest far := by
  rw [transferPin, succeeds_edit_iff,
    ← Edit.succeeds_transferLinks_iff different found destFound direction]
  constructor
  · intro succeeds
    obtain ⟨⟨⟩, middle, moved, _⟩ := succeeds_bind_iff.mp succeeds
    exact ⟨(), middle, moved⟩
  · intro succeeds
    refine succeeds.bind fun _ middle moved => ?_
    have frame := (Edit.transferLinks_keeps_frame origin dest).holds_after moved (.refl _)
    obtain ⟨pin, live, _⟩ := exists_pin?_of_face? ((frame.face origin).trans found)
    refine succeeds_bind_iff.mpr ⟨pin, middle, Edit.yields_pin_iff.mpr ⟨rfl, live⟩, ?_⟩
    split
    · exact ⟨(), _, Edit.yields_modifyPin_of_live ((frame.face dest).trans destFound) _⟩
    · exact succeeds_pure ()

end Pass

end RigLowering
