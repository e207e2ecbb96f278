import RigLowering.Proofs.Ascent
import RigLowering.Proofs.Feasibility

namespace RigLowering

namespace PinType

section Referents

variable {accepts : String → String → Bool} {output relay input : Option String}

theorem referentFeeds_trans
    (transitive : ∀ {first second third}, accepts first second → accepts second third →
      accepts first third)
    (first : referentFeeds accepts output relay) (second : referentFeeds accepts relay input) :
    referentFeeds accepts output input := by
  cases input with
  | none => cases output <;> rfl
  | some input =>
      cases relay with
      | none => cases second
      | some relay =>
          cases output with
          | none => cases first
          | some output => exact transitive first second

end Referents

/-- Whether referents go together is up to the category of both pins. -/
def referentFits (hierarchy : ClassHierarchy) :
    PinCategory → Option String → Option String → Bool
  | .object | .classRef => referentFeeds hierarchy.derivesFrom
  | .struct | .delegate => referentFeeds (· == ·)
  | _ => fun _ _ => true

variable {hierarchy : ClassHierarchy}

theorem referentFits_trans {category : PinCategory} {output relay input : Option String}
    (first : referentFits hierarchy category output relay)
    (second : referentFits hierarchy category relay input) :
    referentFits hierarchy category output input := by
  have equal {first second third : String} (same : first == second) (again : second == third) :
      first == third := beq_iff_eq.mpr ((beq_iff_eq.mp same).trans (beq_iff_eq.mp again))
  cases category with
  | object => exact referentFeeds_trans ClassHierarchy.derivesFrom_trans first second
  | classRef => exact referentFeeds_trans ClassHierarchy.derivesFrom_trans first second
  | struct => exact referentFeeds_trans equal first second
  | delegate => exact referentFeeds_trans equal first second
  | exec | boolean | int | float | string | name | wildcard => rfl

variable {output relay input : PinType}

theorem feeds_of_wildcard (wild : output.category = .wildcard ∨ input.category = .wildcard) :
    output.feeds hierarchy input :=
  if_pos wild

theorem feeds_iff_of_concrete (concrete : output.category ≠ .wildcard)
    (inputConcrete : input.category ≠ .wildcard) :
    output.feeds hierarchy input ↔
      output.container = input.container ∧ output.category = input.category ∧
        referentFits hierarchy output.category output.referent input.referent := by
  unfold feeds
  rw [if_neg (not_or.mpr ⟨concrete, inputConcrete⟩)]
  by_cases shapes : output.container = input.container
  · by_cases categories : output.category = input.category
    · rw [if_neg (by simp [shapes, categories])]
      simp only [shapes, categories, true_and]
      cases input.category <;> rfl
    · simp [categories]
  · simp [shapes]

/-- Only the type in the middle has to be no wildcard. -/
theorem feeds_trans (concrete : relay.category ≠ .wildcard)
    (first : output.feeds hierarchy relay) (second : relay.feeds hierarchy input) :
    output.feeds hierarchy input := by
  by_cases wild : output.category = .wildcard ∨ input.category = .wildcard
  · exact feeds_of_wildcard wild
  obtain ⟨outputConcrete, inputConcrete⟩ := not_or.mp wild
  obtain ⟨shape, category, referent⟩ := (feeds_iff_of_concrete outputConcrete concrete).mp first
  obtain ⟨nextShape, nextCategory, nextReferent⟩ :=
    (feeds_iff_of_concrete concrete inputConcrete).mp second
  rw [← category] at nextReferent
  exact (feeds_iff_of_concrete outputConcrete inputConcrete).mpr
    ⟨shape.trans nextShape, category.trans nextCategory,
      referentFits_trans referent nextReferent⟩

end PinType

namespace Graph

variable {graph : Graph} {output entry exit input : PinId} {taken given : Pin}

/-- Where the way through two pins of one type is open, so is the direct one, unless it leads back
to the same node. -/
theorem Mates.past (first : graph.Mates output entry) (second : graph.Mates exit input)
    (entryLive : graph.pin? entry = some taken) (exitLive : graph.pin? exit = some given)
    (same : given.pinType = taken.pinType) (concrete : taken.pinType.category ≠ .wildcard)
    (apart : ∀ node, ¬ (graph.Owns node output ∧ graph.Owns node input)) :
    graph.Mates output input := by
  obtain ⟨face, entryFace, found, entryFound, direction, _, _, feeds⟩ := first.faces
  obtain ⟨exitFace, far, exitFound, farFound, _, farDirection, _, onward⟩ := second.faces
  cases entryFound.symm.trans (face?_of_pin? entryLive)
  cases exitFound.symm.trans (face?_of_pin? exitLive)
  rw [show given.face.pinType = taken.face.pinType from same] at onward
  refine ⟨face, far, found, farFound, direction, farDirection, ?_,
    PinType.feeds_trans concrete feeds onward⟩
  intro owner
  exact apart far.owner
    ⟨(owns_iff_of_face? found).mpr owner, (owns_iff_of_face? farFound).mpr rfl⟩

end Graph

/-- Under every hierarchy each type feeds itself, and what it may feed by way of a type that is no
wildcard it may feed directly.  So wherever a value may go on through pins of such a type, a link
past them can be made between the two nodes. -/
theorem PinType.feeds_preorder :
    (∀ (hierarchy : ClassHierarchy) (pinType : PinType), pinType.feeds hierarchy pinType) ∧
    (∀ (hierarchy : ClassHierarchy) (output relay input : PinType), relay.category ≠ .wildcard →
      output.feeds hierarchy relay → relay.feeds hierarchy input →
        output.feeds hierarchy input) ∧
    ∀ (graph : Graph) (output entry exit input : PinId) (taken given : Pin),
      graph.pin? entry = some taken → graph.pin? exit = some given →
        given.pinType = taken.pinType → taken.pinType.category ≠ .wildcard →
          graph.Mates output entry → graph.Mates exit input →
            (∀ node, ¬ (graph.Owns node output ∧ graph.Owns node input)) →
              Succeeds (Edit.link output input) graph := by
  refine ⟨PinType.feeds_self, ?_, ?_⟩
  · intro hierarchy output relay input concrete first second
    exact PinType.feeds_trans concrete first second
  · intro graph output entry exit input taken given entryLive exitLive same concrete first second
      apart
    exact Edit.succeeds_link_iff.mpr
      (.inl (first.past second entryLive exitLive same concrete apart))

/-- Through a wildcard more may pass than directly. -/
example :
    PinType.int.feeds .empty .wildcard ∧ PinType.wildcard.feeds .empty .float ∧
      ¬ PinType.int.feeds .empty .float := by
  decide

/-! A foot that goes through a relay of legs to a rig, where legs and rigs derive from each
other. -/

namespace RelayedFoot

open RigLowering.Graph

def hierarchy : ClassHierarchy :=
  ((ClassHierarchy.empty.register "Foot" "Leg").register "Leg" "Rig").register "Rig" "Leg"

def entry : Pin := ⟨⟨1⟩, ⟨1⟩, "leg", .input, .object "Leg", none, none, []⟩

def exit : Pin := ⟨⟨2⟩, ⟨1⟩, "leg", .output, .object "Leg", none, none, []⟩

def foot : Pin := ⟨⟨0⟩, ⟨0⟩, "foot", .output, .object "Foot", none, none, []⟩

def rig : Pin := ⟨⟨3⟩, ⟨2⟩, "rig", .input, .object "Rig", none, none, []⟩

def graph : Graph where
  name := "RelayedFoot"
  parentClass := none
  nodes := #[
    ⟨⟨0⟩, .primitive "foot", [⟨0⟩], none⟩,
    ⟨⟨1⟩, .primitive "relay", [⟨1⟩, ⟨2⟩], none⟩,
    ⟨⟨2⟩, .primitive "stage", [⟨3⟩], none⟩]
  pins := #[some foot, some entry, some exit, some rig]
  hierarchy
  undo := none

theorem enters : graph.Mates ⟨0⟩ ⟨1⟩ :=
  ⟨foot.face, entry.face, rfl, rfl, rfl, rfl, by decide, by decide⟩

theorem leaves : graph.Mates ⟨2⟩ ⟨3⟩ :=
  ⟨exit.face, rig.face, rfl, rfl, rfl, rfl, by decide, by decide⟩

theorem apart (node : NodeId) : ¬ (graph.Owns node ⟨0⟩ ∧ graph.Owns node ⟨3⟩) := by
  rintro ⟨owned, other⟩
  have first : foot.owner = node := (owns_iff_of_pin? rfl).mp owned
  have second : rig.owner = node := (owns_iff_of_pin? rfl).mp other
  exact absurd (first.trans second.symm) (by decide)

theorem foot_passes_leg :
    (PinType.object "Leg").category ≠ .wildcard ∧
      (PinType.object "Foot").feeds hierarchy (.object "Leg") ∧
      (PinType.object "Leg").feeds hierarchy (.object "Rig") ∧
      (PinType.object "Foot").feeds hierarchy (.object "Rig") ∧
      graph.Mates ⟨0⟩ ⟨1⟩ ∧ graph.Mates ⟨2⟩ ⟨3⟩ ∧
      Succeeds (Edit.link ⟨0⟩ ⟨3⟩) graph := by
  obtain ⟨_, transitive, past⟩ := PinType.feeds_preorder
  have concrete : (PinType.object "Leg").category ≠ .wildcard := by decide
  have footFeeds : (PinType.object "Foot").feeds hierarchy (.object "Leg") := by decide
  have legFeeds : (PinType.object "Leg").feeds hierarchy (.object "Rig") := by decide
  exact ⟨concrete, footFeeds, legFeeds, transitive _ _ _ _ concrete footFeeds legFeeds,
    enters, leaves,
    past graph ⟨0⟩ ⟨1⟩ ⟨2⟩ ⟨3⟩ entry exit rfl rfl rfl concrete enters leaves apart⟩

end RelayedFoot

end RigLowering
