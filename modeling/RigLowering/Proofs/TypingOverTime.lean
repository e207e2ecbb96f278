import RigLowering.Proofs.GraphCommands
import RigLowering.Proofs.LinkTyping

namespace RigLowering

namespace ClassHierarchy

theorem extends_register {hierarchy : ClassHierarchy} {name : String}
    (new : hierarchy.parent? name = none) (parent : String) :
    hierarchy.Extends (hierarchy.register name parent) := by
  intro other above found
  rw [parent?_register, if_neg]
  · exact found
  · rintro rfl
    rw [new] at found
    cases found

end ClassHierarchy

namespace StructuralEdit

theorem keeps_typed (call : StructuralEdit) : Keeps Graph.Typed call.change.edit := by
  have kept := Graph.durable_typed.toKept
  cases call with
  | addNode kind => exact Keeps.discard fun _ typed => Graph.Typed.pushNode typed kind
  | addPin node direction pinType name =>
      exact ((Edit.Composed.addPin node direction pinType name).keeps kept).discard
  | removePin pin => exact Edit.removePin_keeps_typed pin
  | link a b => exact kept.link a b
  | unlink a b => exact kept.unlink a b
  | unlinkPin pin => exact kept.unlinkPin pin
  | unlinkNode node => exact (Edit.Composed.unlinkNode node).keeps kept
  | transferLinks origin dest => exact (Edit.Composed.transferLinks origin dest).keeps kept

end StructuralEdit

namespace GraphCommand

/-- A class is registered only while it has no parent. -/
def Permitted (graph : Graph) : GraphCommand → Prop
  | registerClass name _ => graph.hierarchy.parent? name = none
  | _ => True

end GraphCommand

namespace Graph

/-- Graphs that come about by permitted commands. -/
inductive Commanded : Graph → Prop
  | start (name : String) (parentClass : Option String) : Commanded (empty name parentClass)
  | step {graph : Graph} (commanded : graph.Commanded) (command : GraphCommand)
      (permitted : command.Permitted graph) : Commanded (command.apply graph)

variable {graph next : Graph}

/-- What a rollback gives back does not depend on what has happened since the checkpoint. -/
theorem Safeguarded.rollback_cases (safe : graph.Safeguarded)
    (closed : graph.undo = none → next.undo = none)
    (recalls : ∀ {original : Graph}, original.Recalls graph → original.Recalls next) :
    next.rollback.2 = next ∨ next.rollback = graph.rollback := by
  rcases safe.origin with unopened | ⟨original, _, recalled⟩
  · left
    rw [Graph.rollback, closed unopened]
  · right
    rw [recalled.rollback_eq, (recalls recalled).rollback_eq]

/-! The links are typed at every moment, and when a rollback shrinks the hierarchy it takes the
links along that have needed what goes. -/

/-- The links are typed as things stand, and would be after a rollback. -/
structure TypedThroughout (graph : Graph) : Prop extends Safeguarded graph where
  typed : graph.Typed
  restored : graph.rollback.2.Typed

theorem TypedThroughout.empty (name : String) (parentClass : Option String) :
    (Graph.empty name parentClass).TypedThroughout := by
  have regular := empty_regular name parentClass
  have typed : (Graph.empty name parentClass).Typed :=
    { toSound := regular.toSound, fits := fun member => by cases member }
  exact ⟨⟨regular, .inl rfl⟩, typed, typed⟩

theorem TypedThroughout.leaves (throughout : graph.TypedThroughout) (call : StructuralEdit) :
    (call.change.leaves graph).TypedThroughout := by
  have typed : (call.change.leaves graph).Typed := call.keeps_typed graph throughout.typed
  refine ⟨throughout.toSafeguarded.leaves call, typed, ?_⟩
  have closed (unopened : graph.undo = none) : (call.change.leaves graph).undo = none :=
    undo_eq_none_of_commutes call.commutes unopened
  rcases throughout.rollback_cases closed (call.change.edit_recalls graph) with same | earlier
  · rw [same]
    exact typed
  · rw [earlier]
    exact throughout.restored

theorem TypedThroughout.mapHierarchy (throughout : graph.TypedThroughout)
    (change : ClassHierarchy → ClassHierarchy)
    (extension : graph.hierarchy.Extends (change graph.hierarchy)) :
    (graph.mapHierarchy change).TypedThroughout := by
  have typed := throughout.typed.mapHierarchy extension
  refine ⟨throughout.toSafeguarded.mapHierarchy change, typed, ?_⟩
  have closed (unopened : graph.undo = none) : (graph.mapHierarchy change).undo = none := by
    change graph.undo.map _ = none
    rw [unopened, Option.map_none]
  rcases throughout.rollback_cases closed (·.mapHierarchy change) with same | earlier
  · rw [same]
    exact typed
  · rw [earlier]
    exact throughout.restored

theorem TypedThroughout.apply (throughout : graph.TypedThroughout) {command : GraphCommand}
    (permitted : command.Permitted graph) : (command.apply graph).TypedThroughout := by
  have safe := throughout.toSafeguarded.apply command
  cases command with
  | edit call => exact throughout.leaves call
  | registerClass name parent =>
      exact throughout.mapHierarchy (·.register name parent)
        (ClassHierarchy.extends_register permitted parent)
  | mergeHierarchy other =>
      exact throughout.mapHierarchy (·.merge other)
        (ClassHierarchy.extends_merge graph.hierarchy other)
  | checkpoint =>
      refine ⟨safe, durable_typed.checkpoint throughout.typed, ?_⟩
      change graph.checkpoint.rollback.2.Typed
      rw [graph.recalls_checkpoint.rollback_eq]
      exact durable_typed.commit throughout.typed
  | commit =>
      have typed := durable_typed.commit throughout.typed
      exact ⟨safe, typed, typed⟩
  | rollback =>
      refine ⟨safe, throughout.restored, ?_⟩
      change graph.rollback.2.rollback.2.Typed
      have settled : graph.rollback.2.rollback.2 = graph.rollback.2 := by
        cases opened : graph.undo with
        | none => simp only [Graph.rollback, opened]
        | some log => simp only [Graph.rollback, opened]
      rw [settled]
      exact throughout.restored

theorem Commanded.typedThroughout (commanded : graph.Commanded) : graph.TypedThroughout := by
  induction commanded with
  | start name parentClass => exact .empty name parentClass
  | step _ _ permitted ih => exact ih.apply permitted

/-- Whatever is done to a graph, failing calls and rollbacks included, each link joins an output
with an input that takes what it carries under the hierarchy of the moment, as long as no class
gets another parent in place of the one that it has. -/
theorem Commanded.links_stay_typed (commanded : graph.Commanded) : graph.LinksTyped :=
  (typed_iff.mp commanded.typedThroughout.typed).2

end Graph

/-! A leg that is linked while its class is that of a rig. -/

namespace PassingLeg

open RigLowering.Graph

def unlinked : Graph :=
  [.edit (.addNode (.primitive "leg")), .edit (.addNode (.primitive "stage")),
    .edit (.addPin ⟨0⟩ .output (.object "Leg") "leg"),
    .edit (.addPin ⟨1⟩ .input (.object "Rig") "rig"), .checkpoint].foldl
      GraphCommand.apply (.empty "PassingLeg" none)

def linked : Graph :=
  [.registerClass "Leg" "Rig", .edit (.link ⟨0⟩ ⟨1⟩)].foldl GraphCommand.apply unlinked

theorem unlinkedCommanded : unlinked.Commanded :=
  (((((Commanded.start "PassingLeg" none).step (.edit (.addNode (.primitive "leg"))) trivial).step
    (.edit (.addNode (.primitive "stage"))) trivial).step
      (.edit (.addPin ⟨0⟩ .output (.object "Leg") "leg")) trivial).step
        (.edit (.addPin ⟨1⟩ .input (.object "Rig") "rig")) trivial).step .checkpoint trivial

theorem linkedCommanded : linked.Commanded :=
  (unlinkedCommanded.step (.registerClass "Leg" "Rig") rfl).step (.edit (.link ⟨0⟩ ⟨1⟩)) trivial

/-- The rollback takes away the parent of the leg and the link that depends on it. -/
theorem rollback_takes_link : linked.Commanded ∧ linked.LinksTyped ∧ linked.linkCount = 1 ∧
    linked.rollback.2.LinksTyped ∧ linked.rollback.2.hierarchy = .empty ∧
      linked.rollback.2.linkCount = 0 := by
  have restored : linked.rollback.2.Commanded := linkedCommanded.step .rollback trivial
  exact ⟨linkedCommanded, linkedCommanded.links_stay_typed, by decide +kernel,
    restored.links_stay_typed, by decide +kernel, by decide +kernel⟩

end PassingLeg

end RigLowering
