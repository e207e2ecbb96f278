import Mathlib.Data.List.Nodup
import RigLowering.Proofs.WellFormed

namespace RigLowering

namespace Graph

/-! Graphs that differ in no more than links and literals. -/

structure SameFrame (before after : Graph) : Prop where
  nodeCount : after.nodes.size = before.nodes.size
  pinCount : after.pins.size = before.pins.size
  node : ∀ id, after.node? id = before.node? id
  face : ∀ id, after.face? id = before.face? id

theorem SameFrame.refl (graph : Graph) : graph.SameFrame graph :=
  ⟨rfl, rfl, fun _ => rfl, fun _ => rfl⟩

theorem SameFrame.trans {before middle after : Graph} (first : before.SameFrame middle)
    (second : middle.SameFrame after) : before.SameFrame after where
  nodeCount := second.nodeCount.trans first.nodeCount
  pinCount := second.pinCount.trans first.pinCount
  node := fun id => (second.node id).trans (first.node id)
  face := fun id => (second.face id).trans (first.face id)

theorem changePin_sameFrame (graph : Graph) (id : PinId) {change : Pin → Pin}
    (keeps : ∀ pin, (change pin).face = pin.face) :
    graph.SameFrame (graph.changePin id change) where
  nodeCount := rfl
  pinCount := Array.size_modify ..
  node := fun _ => rfl
  face := fun other => face?_changePin graph id other keeps

theorem link_sameFrame (graph : Graph) (id far : PinId) :
    graph.SameFrame (graph.changePin id (·.link far)) :=
  graph.changePin_sameFrame id fun _ => rfl

theorem unlink_sameFrame (graph : Graph) (id far : PinId) :
    graph.SameFrame (graph.changePin id (·.unlink far)) :=
  graph.changePin_sameFrame id fun _ => rfl

theorem unlinkAll_sameFrame (graph : Graph) (id : PinId) :
    graph.SameFrame (graph.changePin id (·.unlinkAll)) :=
  graph.changePin_sameFrame id fun _ => rfl

/-- Pins that a link may join, types apart. -/
def Joinable (graph : Graph) (id far : PinId) : Prop :=
  ∃ face farFace, graph.face? id = some face ∧ graph.face? far = some farFace ∧
    farFace.direction ≠ face.direction ∧ farFace.owner ≠ face.owner

theorem Joinable.symm {graph : Graph} {id far : PinId} (joinable : graph.Joinable id far) :
    graph.Joinable far id := by
  obtain ⟨face, farFace, found, farFound, direction, owner⟩ := joinable
  exact ⟨farFace, face, farFound, found, direction.symm, owner.symm⟩

theorem Joinable.ne {graph : Graph} {id far : PinId} (joinable : graph.Joinable id far) :
    id ≠ far := by
  rintro rfl
  obtain ⟨face, farFace, found, farFound, direction, _⟩ := joinable
  rw [found] at farFound
  cases farFound
  exact direction rfl

theorem Sound.joinable {graph : Graph} (sound : graph.Sound) {id far : PinId}
    (member : far ∈ graph.links id) : graph.Joinable id far := by
  obtain ⟨face, found⟩ := face?_isSome_of_mem_links member
  obtain ⟨farFace, farFound, _, direction, owner⟩ := sound.linked found member
  exact ⟨face, farFace, found, farFound, direction, owner⟩

theorem Sound.mem_links_comm {graph : Graph} (sound : graph.Sound) {id far : PinId} :
    far ∈ graph.links id ↔ id ∈ graph.links far := by
  have flip {a b : PinId} (member : b ∈ graph.links a) : a ∈ graph.links b := by
    obtain ⟨face, found⟩ := face?_isSome_of_mem_links member
    obtain ⟨_, _, back, _⟩ := sound.linked found member
    exact back
  exact ⟨flip, flip⟩

/-- Links may be made anew as long as each is listed at both ends and joins two pins that may be
joined. -/
theorem Sound.relink {before after : Graph} (sound : before.Sound)
    (frame : before.SameFrame after)
    (symmetric : ∀ {id far}, far ∈ after.links id → id ∈ after.links far)
    (joinable : ∀ {id far}, far ∈ after.links id → before.Joinable id far) : after.Sound where
  nodeId := fun found => sound.nodeId (frame.node _ ▸ found)
  faceId := fun found => sound.faceId (frame.face _ ▸ found)
  listed := by
    intro id node pin found member
    rw [frame.face]
    exact sound.listed (frame.node _ ▸ found) member
  owned := by
    intro id face found
    rw [frame.node]
    exact sound.owned (frame.face _ ▸ found)
  linked := by
    intro id far face found member
    obtain ⟨other, farFace, otherFound, farFound, direction, owner⟩ := joinable member
    rw [frame.face, otherFound] at found
    cases found
    exact ⟨farFace, (frame.face far).trans farFound, symmetric member, direction, owner⟩

theorem Regular.relink {before after : Graph} (regular : before.Regular)
    (frame : before.SameFrame after) (sound : after.Sound)
    (linksNodup : ∀ id, (after.links id).Nodup) : after.Regular where
  toSound := sound
  pinsNodup := fun found => regular.pinsNodup (frame.node _ ▸ found)
  linksNodup := linksNodup
  namesUnique := fun first second =>
    regular.namesUnique (frame.face _ ▸ first) (frame.face _ ▸ second)

theorem Sound.of_links_eq {before after : Graph} (sound : before.Sound)
    (frame : before.SameFrame after) (links : ∀ id, after.links id = before.links id) :
    after.Sound := by
  apply sound.relink frame
  · intro id far member
    rw [links] at member ⊢
    exact sound.mem_links_comm.mp member
  · intro id far member
    exact sound.joinable (links id ▸ member)

theorem Regular.of_links_eq {before after : Graph} (regular : before.Regular)
    (frame : before.SameFrame after) (links : ∀ id, after.links id = before.links id) :
    after.Regular :=
  regular.relink frame (regular.toSound.of_links_eq frame links) fun id =>
    links id ▸ regular.linksNodup id

theorem links_changePin_link (graph : Graph) {id : PinId} {face : PinFace} (far other : PinId)
    (found : graph.face? id = some face) :
    (graph.changePin id (·.link far)).links other =
      if other = id then graph.links id ++ [far] else graph.links other := by
  obtain ⟨pin, live, _, same⟩ := exists_pin?_of_face? found
  split
  · next equal => rw [equal, links_changePin_self _ live, ← same]; rfl
  · next different => exact links_changePin_of_ne graph _ (Ne.symm different)

theorem links_changePin_unlink (graph : Graph) (id far other : PinId) :
    (graph.changePin id (·.unlink far)).links other =
      (graph.links other).filter fun listed => ¬ (other = id ∧ listed = far) := by
  by_cases same : other = id
  · subst same
    cases live : graph.pin? other with
    | none => simp [links, pin?_changePin, live]
    | some pin =>
        rw [links_changePin_self _ live, links_of_pin? live]
        simp [Pin.unlink]
  · rw [links_changePin_of_ne graph _ (Ne.symm same)]
    exact (List.filter_eq_self.mpr fun _ _ => by simp [same]).symm

theorem links_changePin_unlinkAll (graph : Graph) (id other : PinId) :
    (graph.changePin id (·.unlinkAll)).links other =
      if other = id then [] else graph.links other := by
  split
  · next same =>
      subst same
      cases live : graph.pin? other with
      | none => simp [links, pin?_changePin, live]
      | some pin => rw [links_changePin_self _ live]; rfl
  · next different => exact links_changePin_of_ne graph _ (Ne.symm different)

theorem checkJoin_eq_ok {graph : Graph} {a b : PinId} (checked : graph.checkJoin a b = .ok ()) :
    graph.Joinable a b := by
  obtain ⟨first, firstRead, afterFirst⟩ := bind_eq_ok_iff.mp checked
  obtain ⟨second, secondRead, compared⟩ := bind_eq_ok_iff.mp afterFirst
  have firstLive := pin_eq_ok_iff.mp firstRead
  have secondLive := pin_eq_ok_iff.mp secondRead
  split at compared
  · cases compared
  · next direction =>
      split at compared
      · cases compared
      · next owner =>
          exact ⟨first.face, second.face, face?_of_pin? firstLive, face?_of_pin? secondLive,
            Ne.symm direction, Ne.symm owner⟩

end Graph

namespace Graph

def join (graph : Graph) (a b : PinId) : Graph :=
  (graph.changePin a (·.link b)).changePin b (·.link a)

def part (graph : Graph) (a b : PinId) : Graph :=
  (graph.changePin a (·.unlink b)).changePin b (·.unlink a)

theorem join_sameFrame (graph : Graph) (a b : PinId) : graph.SameFrame (graph.join a b) :=
  (graph.link_sameFrame a b).trans (link_sameFrame _ b a)

theorem part_sameFrame (graph : Graph) (a b : PinId) : graph.SameFrame (graph.part a b) :=
  (graph.unlink_sameFrame a b).trans (unlink_sameFrame _ b a)

theorem links_join {graph : Graph} {a b : PinId} (joinable : graph.Joinable a b) (id : PinId) :
    (graph.join a b).links id =
      if id = a then graph.links a ++ [b]
      else if id = b then graph.links b ++ [a] else graph.links id := by
  have different := joinable.ne
  obtain ⟨face, farFace, found, farFound, _, _⟩ := joinable
  have farStays := (graph.link_sameFrame a b).face b
  rw [join, links_changePin_link _ a id (farStays.trans farFound)]
  split
  · next same =>
      subst same
      rw [if_neg (Ne.symm different), links_changePin_of_ne graph _ different]
  · next => exact links_changePin_link graph b id found

theorem mem_links_join {graph : Graph} {a b : PinId} (joinable : graph.Joinable a b)
    {id far : PinId} :
    far ∈ (graph.join a b).links id ↔
      far ∈ graph.links id ∨ (id = a ∧ far = b) ∨ (id = b ∧ far = a) := by
  have different := joinable.ne
  rw [links_join joinable]
  split
  · next same => simp [same, different]
  · next notFirst =>
      split
      · next same => simp [same, Ne.symm different]
      · next notSecond => simp [notFirst, notSecond]

theorem links_part (graph : Graph) (a b id : PinId) :
    (graph.part a b).links id =
      (graph.links id).filter fun far => ¬ (id = a ∧ far = b) ∧ ¬ (id = b ∧ far = a) := by
  rw [part, links_changePin_unlink, links_changePin_unlink, List.filter_filter]
  apply List.filter_congr
  intro far _
  rw [← Bool.decide_and]
  exact decide_eq_decide.mpr and_comm

theorem mem_links_part {graph : Graph} {a b id far : PinId} :
    far ∈ (graph.part a b).links id ↔
      far ∈ graph.links id ∧ ¬ (id = a ∧ far = b) ∧ ¬ (id = b ∧ far = a) := by
  rw [links_part, List.mem_filter, decide_eq_true_eq]

/-- Nothing lists a pin that is not there. -/
theorem Sound.links_unlink_absent {graph : Graph} (sound : graph.Sound) {a b : PinId}
    (absent : graph.face? b = none) (id : PinId) :
    (graph.changePin a (·.unlink b)).links id = graph.links id := by
  rw [links_changePin_unlink, List.filter_eq_self]
  intro far member
  obtain ⟨_, farFace, _, farFound, _⟩ := sound.joinable member
  have live : far ≠ b := by
    rintro rfl
    rw [absent] at farFound
    cases farFound
  simp [live]

theorem Sound.join {graph : Graph} (sound : graph.Sound) {a b : PinId}
    (joinable : graph.Joinable a b) : (graph.join a b).Sound := by
  apply sound.relink (graph.join_sameFrame a b)
  · intro id far member
    rw [mem_links_join joinable] at member ⊢
    rw [sound.mem_links_comm]
    grind
  · intro id far member
    rcases (mem_links_join joinable).mp member with old | ⟨rfl, rfl⟩ | ⟨rfl, rfl⟩
    · exact sound.joinable old
    · exact joinable
    · exact joinable.symm

theorem Sound.part {graph : Graph} (sound : graph.Sound) (a b : PinId) :
    (graph.part a b).Sound := by
  apply sound.relink (graph.part_sameFrame a b)
  · intro id far member
    rw [mem_links_part] at member ⊢
    rw [sound.mem_links_comm]
    grind
  · intro id far member
    exact sound.joinable (mem_links_part.mp member).1

theorem Regular.join {graph : Graph} (regular : graph.Regular) {a b : PinId}
    (joinable : graph.Joinable a b) (fresh : b ∉ graph.links a) : (graph.join a b).Regular := by
  apply regular.relink (graph.join_sameFrame a b) (regular.toSound.join joinable)
  have back : a ∉ graph.links b := fun member => fresh (regular.mem_links_comm.mp member)
  intro id
  rw [links_join joinable]
  split
  · rw [← List.concat_eq_append]
    exact (regular.linksNodup a).concat fresh
  · split
    · rw [← List.concat_eq_append]
      exact (regular.linksNodup b).concat back
    · exact regular.linksNodup id

theorem Regular.part {graph : Graph} (regular : graph.Regular) (a b : PinId) :
    (graph.part a b).Regular := by
  apply regular.relink (graph.part_sameFrame a b) (regular.toSound.part a b)
  intro id
  rw [links_part]
  exact (regular.linksNodup id).filter _

end Graph

namespace Edit

open RigLowering.Graph

theorem link_cases (a b : PinId) (graph : Graph) :
    (∃ error, link a b graph = (.error error, graph)) ∨
      graph.Joinable a b ∧
        (b ∈ graph.links a ∧ link a b graph = (.ok (), graph) ∨
          b ∉ graph.links a ∧ link a b graph = (.ok (), graph.join a b)) := by
  unfold link
  rw [bind_apply, query_apply]
  cases checked : graph.checkJoin a b with
  | error error => exact .inl ⟨error, rfl⟩
  | ok _ =>
      have joinable := checkJoin_eq_ok checked
      refine .inr ⟨joinable, ?_⟩
      obtain ⟨face, farFace, found, farFound, _, _⟩ := joinable
      obtain ⟨pin, live, _, same⟩ := exists_pin?_of_face? found
      have farStays := (graph.link_sameFrame a b).face b
      obtain ⟨far, farLive, _, _⟩ := exists_pin?_of_face? (farStays.trans farFound)
      simp only
      rw [bind_apply, pin_apply, Graph.pin, live]
      simp only
      rw [same]
      split
      · next member => exact .inl ⟨member, rfl⟩
      · next absent =>
          refine .inr ⟨absent, ?_⟩
          rw [bind_apply, modifyPin_apply, live]
          simp only
          rw [modifyPin_apply, farLive]
          rfl

theorem yields_link {a b : PinId} {before after : Graph} (sound : before.Sound)
    (linked : Yields (link a b) before () after) :
    before.SameFrame after ∧ before.Joinable a b ∧
      ∀ {id far}, far ∈ after.links id ↔
        far ∈ before.links id ∨ (id = a ∧ far = b) ∨ (id = b ∧ far = a) := by
  unfold Yields at linked
  rcases link_cases a b before with ⟨error, failed⟩ | ⟨joinable, ⟨member, same⟩ | ⟨_, joined⟩⟩
  · rw [failed] at linked
    cases linked
  · rw [same] at linked
    cases linked
    refine ⟨.refl _, joinable, ?_⟩
    intro id far
    constructor
    · exact .inl
    · rintro (old | ⟨rfl, rfl⟩ | ⟨rfl, rfl⟩)
      · exact old
      · exact member
      · exact sound.mem_links_comm.mp member
  · rw [joined] at linked
    cases linked
    exact ⟨before.join_sameFrame a b, joinable, mem_links_join joinable⟩

theorem link_keeps_sound (a b : PinId) : Keeps Sound (link a b) := by
  intro graph sound
  rcases link_cases a b graph with ⟨error, failed⟩ | ⟨joinable, ⟨_, same⟩ | ⟨_, joined⟩⟩
  · rw [failed]
    exact sound
  · rw [same]
    exact sound
  · rw [joined]
    exact sound.join joinable

theorem link_keeps_regular (a b : PinId) : Keeps Regular (link a b) := by
  intro graph regular
  rcases link_cases a b graph with ⟨error, failed⟩ | ⟨joinable, ⟨_, same⟩ | ⟨fresh, joined⟩⟩
  · rw [failed]
    exact regular
  · rw [same]
    exact regular
  · rw [joined]
    exact regular.join joinable fresh

theorem unlink_cases (a b : PinId) (graph : Graph) :
    (∃ error, unlink a b graph = (.error error, graph)) ∨
      (∃ error, graph.face? b = none ∧
        unlink a b graph = (.error error, graph.changePin a (·.unlink b))) ∨
      unlink a b graph = (.ok (), graph.part a b) := by
  unfold unlink
  rw [bind_apply, modifyPin_apply]
  cases graph.pin? a with
  | none => exact .inl ⟨_, rfl⟩
  | some pin =>
      right
      simp only
      rw [modifyPin_apply]
      cases farLive : (graph.changePin a (·.unlink b)).pin? b with
      | none =>
          rw [← (graph.unlink_sameFrame a b).face b]
          exact .inl ⟨_, Option.map_eq_none_iff.mpr farLive, rfl⟩
      | some far => exact .inr rfl

theorem yields_unlink {a b : PinId} {before after : Graph}
    (unlinked : Yields (unlink a b) before () after) : after = before.part a b := by
  unfold Yields at unlinked
  rcases unlink_cases a b before with ⟨_, failed⟩ | ⟨_, _, failed⟩ | parted
  · rw [failed] at unlinked
    cases unlinked
  · rw [failed] at unlinked
    cases unlinked
  · rw [parted] at unlinked
    cases unlinked
    rfl

theorem unlink_keeps_sound (a b : PinId) : Keeps Sound (unlink a b) := by
  intro graph sound
  rcases unlink_cases a b graph with ⟨_, same⟩ | ⟨_, absent, half⟩ | parted
  · rw [same]
    exact sound
  · rw [half]
    exact sound.of_links_eq (graph.unlink_sameFrame a b) (sound.links_unlink_absent absent)
  · rw [parted]
    exact sound.part a b

theorem unlink_keeps_regular (a b : PinId) : Keeps Regular (unlink a b) := by
  intro graph regular
  rcases unlink_cases a b graph with ⟨_, same⟩ | ⟨_, absent, half⟩ | parted
  · rw [same]
    exact regular
  · rw [half]
    exact regular.of_links_eq (graph.unlink_sameFrame a b) (regular.links_unlink_absent absent)
  · rw [parted]
    exact regular.part a b

theorem link_frame (a b : PinId) (graph : Graph) : graph.SameFrame (link a b graph).2 := by
  rcases link_cases a b graph with ⟨error, failed⟩ | ⟨_, ⟨_, same⟩ | ⟨_, joined⟩⟩
  · rw [failed]
    exact .refl graph
  · rw [same]
    exact .refl graph
  · rw [joined]
    exact graph.join_sameFrame a b

theorem unlink_frame (a b : PinId) (graph : Graph) : graph.SameFrame (unlink a b graph).2 := by
  rcases unlink_cases a b graph with ⟨_, same⟩ | ⟨_, _, half⟩ | parted
  · rw [same]
    exact .refl graph
  · rw [half]
    exact graph.unlink_sameFrame a b
  · rw [parted]
    exact graph.part_sameFrame a b

end Edit

end RigLowering
