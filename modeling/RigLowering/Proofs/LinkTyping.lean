import RigLowering.Proofs.Ancestry
import RigLowering.Proofs.AuditPreservation
import RigLowering.Proofs.PinRemoval

namespace RigLowering

namespace Edit

theorem modifyNode_keeps_hierarchy {hierarchy : ClassHierarchy} (id : NodeId)
    (change : Node → Node) : Keeps (·.hierarchy = hierarchy) (modifyNode id change) :=
  (keeps_query _).bind fun _ => keeps_modify fun _ same => same

theorem modifyPin_keeps_hierarchy {hierarchy : ClassHierarchy} (id : PinId) (change : Pin → Pin) :
    Keeps (·.hierarchy = hierarchy) (modifyPin id change) :=
  (keeps_query _).bind fun _ => keeps_modify fun _ same => same

theorem removePin_keeps_hierarchy {hierarchy : ClassHierarchy} (id : PinId) :
    Keeps (·.hierarchy = hierarchy) (removePin id) := by
  refine (keeps_unlinkPin modifyPin_keeps_hierarchy id).bind fun _ => (keeps_query _).bind fun _ =>
    (modifyNode_keeps_hierarchy _ _).bind fun _ => keeps_modify fun graph same => ?_
  exact same

end Edit

namespace Pin

/-- Whether one of the pins is an output and the other an input that takes what it carries. -/
def isTypedWith (hierarchy : ClassHierarchy) (pin far : Pin) : Bool :=
  match pin.direction, far.direction with
  | .output, .input => pin.pinType.feeds hierarchy far.pinType
  | .input, .output => far.pinType.feeds hierarchy pin.pinType
  | _, _ => false

theorem isTypedWith_iff {hierarchy : ClassHierarchy} {pin far : Pin}
    (apart : far.direction ≠ pin.direction) :
    pin.isTypedWith hierarchy far ↔
      (pin.direction = .output → pin.pinType.feeds hierarchy far.pinType) ∧
        (far.direction = .output → far.pinType.feeds hierarchy pin.pinType) := by
  unfold isTypedWith
  cases toward : pin.direction <;> cases farToward : far.direction <;> simp_all

end Pin

namespace Graph

theorem kept_hierarchy (hierarchy : ClassHierarchy) : Kept (·.hierarchy = hierarchy) where
  withNode := fun _ _ same => same
  withSettings := fun _ _ same => same
  withPin := fun same _ _ => same
  withLiterals := fun _ _ _ same => same
  link := Edit.keeps_link Edit.modifyPin_keeps_hierarchy
  unlink := Edit.keeps_unlink Edit.modifyPin_keeps_hierarchy
  unlinkPin := Edit.keeps_unlinkPin Edit.modifyPin_keeps_hierarchy

/-! Graphs all of whose links join an output with an input that takes what it carries. -/

def LinksTyped (graph : Graph) : Prop :=
  ∀ pin ∈ graph.livePins, ∀ id ∈ pin.links, ∃ far, graph.pin? id = some far ∧
    pin.isTypedWith graph.hierarchy far

instance (graph : Graph) : Decidable graph.LinksTyped :=
  decidable_of_iff (∀ pin ∈ graph.livePins, ∀ id ∈ pin.links,
    (graph.pin? id).any (pin.isTypedWith graph.hierarchy))
    (by simp [LinksTyped, Option.any_eq_true])

/-- The output may be linked to the input, as far as their types go. -/
def Fits (graph : Graph) (output input : PinId) : Prop :=
  ∀ outputFace inputFace, graph.face? output = some outputFace →
    graph.face? input = some inputFace → outputFace.direction = .output →
      outputFace.pinType.feeds graph.hierarchy inputFace.pinType

structure Typed (graph : Graph) : Prop extends Sound graph where
  fits : ∀ {output input}, input ∈ graph.links output → graph.Fits output input

theorem Fits.of_frame {before after : Graph} {output input : PinId}
    (fits : before.Fits output input) (frame : before.SameFrame after)
    (hierarchy : after.hierarchy = before.hierarchy) : after.Fits output input := by
  intro outputFace inputFace outputFound inputFound directed
  rw [hierarchy]
  exact fits outputFace inputFace (frame.face _ ▸ outputFound) (frame.face _ ▸ inputFound) directed

theorem fits_iff {graph : Graph} {output input : PinId} {face far : PinFace}
    (found : graph.face? output = some face) (farFound : graph.face? input = some far) :
    graph.Fits output input ↔
      (face.direction = .output → face.pinType.feeds graph.hierarchy far.pinType) := by
  constructor
  · intro fits
    exact fits face far found farFound
  · intro feeds outputFace inputFace outputFound inputFound
    cases found.symm.trans outputFound
    cases farFound.symm.trans inputFound
    exact feeds

/-- The links of the pin fit the types at both ends. -/
def TypedAt (graph : Graph) (id : PinId) : Prop :=
  ∀ far ∈ graph.links id, graph.Fits id far ∧ graph.Fits far id

theorem Typed.typedAt {graph : Graph} (typed : graph.Typed) (id : PinId) : graph.TypedAt id :=
  fun _ member => ⟨typed.fits member, typed.fits (typed.mem_links_comm.mp member)⟩

theorem Sound.typedAt_iff {graph : Graph} (sound : graph.Sound) {id : PinId} {pin : Pin}
    (live : graph.pin? id = some pin) :
    graph.TypedAt id ↔ ∀ farId ∈ pin.links, ∃ far, graph.pin? farId = some far ∧
      pin.isTypedWith graph.hierarchy far := by
  unfold TypedAt
  rw [links_of_pin? live]
  refine forall₂_congr fun farId member => ?_
  obtain ⟨face, farFace, found, farFound, directions, _⟩ :=
    sound.joinable (links_of_pin? live ▸ member)
  obtain ⟨far, farLive, rfl, _⟩ := exists_pin?_of_face? farFound
  cases found.symm.trans (face?_of_pin? live)
  rw [fits_iff found farFound, fits_iff farFound found, farLive]
  simp only [Option.some.injEq, exists_eq_left', Pin.isTypedWith_iff directions]
  rfl

theorem typed_iff {graph : Graph} : graph.Typed ↔ graph.Sound ∧ graph.LinksTyped := by
  constructor
  · intro typed
    refine ⟨typed.toSound, fun pin member => ?_⟩
    exact (typed.typedAt_iff (typed.pin?_of_mem_livePins member)).mp (typed.typedAt _)
  · rintro ⟨sound, linksTyped⟩
    refine ⟨sound, fun {output input} member => ?_⟩
    obtain ⟨face, found⟩ := face?_isSome_of_mem_links member
    obtain ⟨pin, live, _⟩ := exists_pin?_of_face? found
    have typedAt := (sound.typedAt_iff live).mpr
      (linksTyped pin (mem_livePins_iff.mpr ⟨output, live⟩))
    exact (typedAt input member).1

theorem Typed.relink {before after : Graph} (typed : before.Typed) (sound : after.Sound)
    (frame : before.SameFrame after) (hierarchy : after.hierarchy = before.hierarchy)
    (links : ∀ {output input}, input ∈ after.links output →
      input ∈ before.links output ∨ before.Fits output input) : after.Typed where
  toSound := sound
  fits := by
    intro output input member
    rcases links member with old | fits
    · exact (typed.fits old).of_frame frame hierarchy
    · exact fits.of_frame frame hierarchy

/-- Typing looks at faces, links and the hierarchy alone. -/
theorem Typed.of_faces {before after : Graph} (typed : before.Typed) (sound : after.Sound)
    (faces : ∀ id, after.face? id = before.face? id)
    (hierarchy : after.hierarchy = before.hierarchy)
    (links : ∀ id, after.links id = before.links id) : after.Typed where
  toSound := sound
  fits := by
    intro output input member outputFace inputFace outputFound inputFound
    rw [hierarchy]
    exact typed.fits (links output ▸ member) outputFace inputFace (faces _ ▸ outputFound)
      (faces _ ▸ inputFound)

theorem Typed.withPin {graph : Graph} (typed : graph.Typed) {node : NodeId} {data : Node}
    {direction : PinDirection} {pinType : PinType} {name : String}
    (found : graph.node? node = some data) :
    (graph.withPin node direction pinType name).Typed where
  toSound := typed.toSound.withPin found
  fits := by
    intro output input member outputFace inputFace outputFound inputFound
    rw [links_withPin] at member
    obtain ⟨_, _, outputOld, inputOld, _⟩ := typed.joinable member
    rw [face?_withPin, if_neg (Nat.ne_of_lt (lt_size_of_face? outputOld))] at outputFound
    rw [face?_withPin, if_neg (Nat.ne_of_lt (lt_size_of_face? inputOld))] at inputFound
    exact typed.fits member outputFace inputFace outputFound inputFound

theorem Typed.pushNode {graph : Graph} (typed : graph.Typed) (kind : NodeKind) :
    (graph.pushNode kind).Typed :=
  typed.of_faces (typed.toSound.pushNode kind) (fun _ => rfl) rfl fun _ => rfl

theorem Typed.removed {before after : Graph} {id : PinId} (typed : before.Typed)
    (removed : before.Removed after id) (hierarchy : after.hierarchy = before.hierarchy) :
    after.Typed where
  toSound := typed.toSound.removed removed
  fits := by
    intro output input member outputFace inputFace outputFound inputFound
    rw [hierarchy]
    exact typed.fits (removed.mem_links_iff.mp member).1 outputFace inputFace
      (removed.face?_eq_some_iff.mp outputFound).2 (removed.face?_eq_some_iff.mp inputFound).2

/-- A hierarchy that takes nothing back refuses no link that is there. -/
theorem Typed.mapHierarchy {graph : Graph} (typed : graph.Typed)
    {change : ClassHierarchy → ClassHierarchy}
    (extension : graph.hierarchy.Extends (change graph.hierarchy)) :
    (graph.mapHierarchy change).Typed where
  toSound := typed.of_roster (fun _ => rfl) (fun _ => rfl) fun _ => rfl
  fits := by
    intro output input member outputFace inputFace outputFound inputFound directed
    exact PinType.feeds_mono extension
      (typed.fits member outputFace inputFace outputFound inputFound directed)

theorem Typed.mergeHierarchy {graph : Graph} (typed : graph.Typed) (other : ClassHierarchy) :
    (graph.mapHierarchy (·.merge other)).Typed :=
  typed.mapHierarchy (ClassHierarchy.extends_merge graph.hierarchy other)

theorem checkTypes_eq_ok_iff {graph : Graph} {output input : Pin} :
    graph.checkTypes output input = .ok () ↔
      output.pinType.feeds graph.hierarchy input.pinType := by
  unfold checkTypes
  split
  · next feeds => simp [feeds]
  · next refused => simp [refused]

/-- A link that is made fits, from whichever end it is looked at. -/
theorem checkJoin_fits {graph : Graph} {a b : PinId} (checked : graph.checkJoin a b = .ok ()) :
    graph.Fits a b ∧ graph.Fits b a := by
  obtain ⟨first, firstRead, afterFirst⟩ := bind_eq_ok_iff.mp checked
  obtain ⟨second, secondRead, compared⟩ := bind_eq_ok_iff.mp afterFirst
  have firstFound := face?_of_pin? (pin_eq_ok_iff.mp firstRead)
  have secondFound := face?_of_pin? (pin_eq_ok_iff.mp secondRead)
  unfold Fits
  rw [firstFound, secondFound]
  split at compared
  · cases compared
  · next directions =>
      split at compared
      · cases compared
      · cases direction : first.direction with
        | output =>
            rw [direction] at compared directions
            refine ⟨?_, ?_⟩
            · rintro _ _ ⟨⟩ ⟨⟩ _
              exact checkTypes_eq_ok_iff.mp compared
            · rintro _ _ ⟨⟩ ⟨⟩ backward
              exact (directions (backward : second.direction = .output).symm).elim
        | input =>
            rw [direction] at compared
            refine ⟨?_, ?_⟩
            · rintro _ _ ⟨⟩ ⟨⟩ forward
              rw [show first.direction = .output from forward] at direction
              cases direction
            · rintro _ _ ⟨⟩ ⟨⟩ _
              exact checkTypes_eq_ok_iff.mp compared

end Graph

namespace Edit

open RigLowering.Graph

theorem link_keeps_typed (a b : PinId) : Keeps Typed (link a b) := by
  intro graph typed
  have sound := link_keeps_sound a b graph typed.toSound
  have hierarchy := (kept_hierarchy graph.hierarchy).link a b graph rfl
  cases ran : link a b graph with
  | mk result after =>
      rw [ran] at sound hierarchy
      rcases link_cases a b graph with ⟨error, failed⟩ | ⟨joinable, ⟨_, same⟩ | ⟨_, joined⟩⟩
      · rw [failed] at ran
        cases ran
        exact typed
      · rw [same] at ran
        cases ran
        exact typed
      · rw [joined] at ran
        cases ran
        obtain ⟨_, _, checked, _⟩ :=
          yields_bind_iff.mp (show Yields (link a b) graph () _ from joined)
        obtain ⟨forward, backward⟩ := checkJoin_fits (yields_query_iff.mp checked).2
        refine typed.relink sound (graph.join_sameFrame a b) hierarchy ?_
        intro output input member
        rcases (mem_links_join joinable).mp member with old | ⟨rfl, rfl⟩ | ⟨rfl, rfl⟩
        · exact .inl old
        · exact .inr forward
        · exact .inr backward

theorem unlink_keeps_typed (a b : PinId) : Keeps Typed (unlink a b) := by
  intro graph typed
  have sound := unlink_keeps_sound a b graph typed.toSound
  have hierarchy := (kept_hierarchy graph.hierarchy).unlink a b graph rfl
  rcases unlink_cases a b graph with ⟨_, same⟩ | ⟨_, _, half⟩ | parted
  · rw [same]
    exact typed
  · rw [half] at sound hierarchy ⊢
    refine typed.relink sound (graph.unlink_sameFrame a b) hierarchy fun member => .inl ?_
    rw [links_changePin_unlink] at member
    exact (List.mem_filter.mp member).1
  · rw [parted] at sound hierarchy ⊢
    exact typed.relink sound (graph.part_sameFrame a b) hierarchy fun member =>
      .inl (mem_links_part.mp member).1

theorem unlinkPin_keeps_typed (id : PinId) : Keeps Typed (unlinkPin id) := by
  intro graph typed
  have sound := unlinkPin_keeps_sound id graph typed.toSound
  have hierarchy := (kept_hierarchy graph.hierarchy).unlinkPin id graph rfl
  rcases unlinkPin_cases typed.toSound id with ⟨_, _, failed⟩ | ⟨_, _, _, done, frame, links⟩
  · rw [failed]
    exact typed
  · rw [done] at sound hierarchy ⊢
    exact typed.relink sound frame hierarchy fun member =>
      .inl ((mem_links_of_unlinked links).mp member).1

theorem removePin_keeps_typed (id : PinId) : Keeps Typed (removePin id) := by
  intro graph typed
  have hierarchy := @removePin_keeps_hierarchy graph.hierarchy id graph rfl
  rcases removePin_cases typed.toSound id with ⟨_, _, failed⟩ | ⟨after, done, removed⟩
  · rw [failed]
    exact typed
  · rw [done] at hierarchy ⊢
    exact typed.removed removed hierarchy

end Edit

namespace Graph

theorem durable_typed : Durable Typed where
  withNode := fun kind source typed =>
    typed.of_faces (typed.toSound.withNode kind source) (fun _ => rfl) rfl fun _ => rfl
  withSettings := fun node change typed =>
    typed.of_faces (typed.toSound.withSettings node change) (fun _ => rfl) rfl fun _ => rfl
  withPin := fun typed found _ => typed.withPin found
  withLiterals := fun pin value object typed =>
    typed.of_faces (kept_sound.withLiterals pin value object typed.toSound)
      (fun other => face?_changePin _ pin other fun _ => rfl) rfl
      (links_changePin_setLiterals _ pin value object)
  link := Edit.link_keeps_typed
  unlink := Edit.unlink_keeps_typed
  unlinkPin := Edit.unlinkPin_keeps_typed
  checkpoint := fun typed =>
    typed.of_faces (durable_sound.checkpoint typed.toSound) (fun _ => rfl) rfl fun _ => rfl
  commit := fun typed =>
    typed.of_faces (durable_sound.commit typed.toSound) (fun _ => rfl) rfl fun _ => rfl

/-- A pass hands back a graph whose links are typed under the hierarchy that it has by then, which
is the one that it came with and the rig classes. -/
theorem compile_keeps_linksTyped {graph : Graph} {registry : RigRegistry} {runtime : RigRuntime}
    {options : PassOptions} {compiled : CompiledGraph} (audited : graph.audit = .ok ())
    (linksTyped : graph.LinksTyped)
    (ran : graph.compile registry runtime options = .ok compiled) : compiled.graph.LinksTyped := by
  have typed : graph.Typed := typed_iff.mpr ⟨audit_eq_ok_iff.mp audited, linksTyped⟩
  obtain ⟨final, folded, rfl⟩ := compile_eq_ok ran
  exact (typed_iff.mp (durable_typed.foldlM_compileNode folded
    (typed.mergeHierarchy registry.hierarchy))).2

end Graph

namespace CrossedLegs

theorem linksTyped : graph.LinksTyped := by
  decide

theorem compile_keeps_typing :
    ∃ compiled, graph.compile registry (.standard "Rig") .standard = .ok compiled ∧
      compiled.graph.LinksTyped := by
  obtain ⟨compiled, ran⟩ := compiles
  exact ⟨compiled, ran, Graph.compile_keeps_linksTyped wellFormed.audited linksTyped ran⟩

end CrossedLegs

end RigLowering
