import RigLowering.Proofs.Ascent
import RigLowering.Proofs.RuntimeFeasibility

namespace RigLowering

namespace ClassHierarchy

variable {hierarchy other : ClassHierarchy} {name parent : String}

theorem parent?_merge (hierarchy other : ClassHierarchy) (name : String) :
    (hierarchy.merge other).parent? name = (hierarchy.parent? name).or (other.parent? name) :=
  NameMap.find?_merge ..

end ClassHierarchy

namespace RigRegistry

/-- The hierarchy gives the registered class another parent than the registry does. -/
def Displaced (registry : RigRegistry) (hierarchy : ClassHierarchy) (name parent : String) :
    Prop :=
  hierarchy.parent? name = some parent ∧
    ∃ rigClass, registry.find? name = some rigClass ∧ parent ≠ rigClass.parent

/-- By registered parents one comes up from the class to `upper`, and none of the classes that are
left on the way is displaced. -/
inductive Undisturbed (registry : RigRegistry) (hierarchy : ClassHierarchy) :
    String → String → Prop
  | refl (name : String) : registry.Undisturbed hierarchy name name
  | step {name upper : String} {rigClass : RigClass} (found : registry.find? name = some rigClass)
      (kept : ∀ parent, ¬ registry.Displaced hierarchy name parent)
      (rest : registry.Undisturbed hierarchy rigClass.parent upper) :
      registry.Undisturbed hierarchy name upper

variable {registry : RigRegistry} {hierarchy : ClassHierarchy} {name upper parent : String}
  {rigClass : RigClass}

/-- A class that is not displaced has its registered parent once the hierarchies are merged. -/
theorem parent?_merge_of_kept (found : registry.find? name = some rigClass)
    (kept : ∀ parent, ¬ registry.Displaced hierarchy name parent) :
    (hierarchy.merge registry.hierarchy).parent? name = some rigClass.parent := by
  rw [ClassHierarchy.parent?_merge, parent?_hierarchy, found]
  cases own : hierarchy.parent? name with
  | none => rfl
  | some parent =>
      have same : parent = rigClass.parent :=
        by_contra fun other => kept parent ⟨own, rigClass, found, other⟩
      rw [same]
      rfl

theorem Displaced.parent?_merge (displaced : registry.Displaced hierarchy name parent) :
    (hierarchy.merge registry.hierarchy).parent? name = some parent := by
  rw [ClassHierarchy.parent?_merge, displaced.1]
  rfl

theorem Rooted.ne_base (rooted : registry.Rooted) (found : registry.find? name = some rigClass) :
    name ≠ registry.base := by
  rintro rfl
  cases rooted.base.symm.trans found

/-- The classes on an undisturbed way all fare alike. -/
theorem Undisturbed.derivesFrom_base_iff (rooted : registry.Rooted)
    (way : registry.Undisturbed hierarchy name upper) :
    (hierarchy.merge registry.hierarchy).derivesFrom name registry.base ↔
      (hierarchy.merge registry.hierarchy).derivesFrom upper registry.base := by
  induction way with
  | refl name => rfl
  | step found kept _ ih =>
      rw [ClassHierarchy.derivesFrom_iff_of_parent (parent?_merge_of_kept found kept), ih]
      exact or_iff_right (rooted.ne_base found)

/-- The way up ends at the base class or at the first class that is displaced. -/
theorem Rooted.undisturbed_or_displaced (rooted : registry.Rooted)
    (known : registry.Known name) (hierarchy : ClassHierarchy) :
    registry.Undisturbed hierarchy name registry.base ∨ ∃ upper parent,
      registry.Undisturbed hierarchy name upper ∧ registry.Displaced hierarchy upper parent := by
  obtain ⟨chain, ascends, -, -, members⟩ := rooted.ascends known
  clear known
  induction ascends with
  | @top name parentless =>
      rcases members name (by simp) with rfl | registered
      · exact .inl (.refl _)
      · obtain ⟨rigClass, found⟩ := contains_iff.mp registered
        rw [parent?_hierarchy, found] at parentless
        cases parentless
  | @step name parent chain found _ ih =>
      rw [parent?_hierarchy] at found
      obtain ⟨rigClass, registered, rfl⟩ := Option.map_eq_some_iff.mp found
      by_cases displaced : ∃ parent, registry.Displaced hierarchy name parent
      · obtain ⟨parent, displaced⟩ := displaced
        exact .inr ⟨name, parent, .refl name, displaced⟩
      · have kept := not_exists.mp displaced
        refine (ih fun member listed => members member (List.mem_cons_of_mem _ listed)).imp
          (.step registered kept) ?_
        rintro ⟨upper, parent, way, displaced⟩
        exact ⟨upper, parent, .step registered kept way, displaced⟩

/-- In the merged hierarchy a registered class derives from the base class, unless there is a
displaced class on its way up: then what counts is the parent of the first one. -/
theorem Built.merge_derivesFrom_base (built : registry.Built)
    (registered : registry.contains name) (hierarchy : ClassHierarchy) :
    let merged := hierarchy.merge registry.hierarchy
    (registry.Undisturbed hierarchy name registry.base ∧ merged.derivesFrom name registry.base) ∨
      ∃ upper parent, registry.Undisturbed hierarchy name upper ∧
        registry.Displaced hierarchy upper parent ∧
          (merged.derivesFrom name registry.base ↔ merged.derivesFrom parent registry.base) := by
  have rooted := built.rooted
  refine (rooted.undisturbed_or_displaced (.inr registered) hierarchy).imp ?_ ?_
  · intro way
    exact ⟨way, (way.derivesFrom_base_iff rooted).mpr (ClassHierarchy.derivesFrom_self ..)⟩
  · rintro ⟨upper, parent, way, displaced⟩
    obtain ⟨_, rigClass, found, _⟩ := id displaced
    refine ⟨upper, parent, way, displaced, ?_⟩
    rw [way.derivesFrom_base_iff rooted,
      ClassHierarchy.derivesFrom_iff_of_parent displaced.parent?_merge]
    exact or_iff_right (rooted.ne_base found)

end RigRegistry

namespace PinType

variable {hierarchy : ClassHierarchy} {className base : String}

theorem object_feeds_object_iff :
    (object className).feeds hierarchy (object base) ↔ hierarchy.derivesFrom className base := by
  simp [feeds, object, referring, referentFeeds]

end PinType

namespace PassState

/-- At the start of a pass a registered class is known to derive from the base class, whatever
hierarchy the graph had, unless that displaces a class on its way up: then the class is known just
where the parent of the first displaced class is.  Sub-rigs of the class can be handed to the
evaluations of the standard runtime just when it is known. -/
theorem start_derivesFrom_base {registry : RigRegistry} {name : String}
    (built : registry.Built) (registered : registry.contains name) (options : PassOptions)
    (graph : Graph) :
    let hierarchy := (PassState.start registry options graph).graph.hierarchy
    ((registry.Undisturbed graph.hierarchy name registry.base ∧
        hierarchy.derivesFrom name registry.base) ∨
      ∃ upper parent, registry.Undisturbed graph.hierarchy name upper ∧
        registry.Displaced graph.hierarchy upper parent ∧
          (hierarchy.derivesFrom name registry.base ↔
            hierarchy.derivesFrom parent registry.base)) ∧
      ∀ function ∈ (RigRuntime.standard registry.base).evaluations, ∀ parameter,
        function.parameter? RuntimeName.target = some parameter →
          ((PinType.object name).feeds hierarchy parameter.pinType ↔
            hierarchy.derivesFrom name registry.base) := by
  intro hierarchy
  refine ⟨built.merge_derivesFrom_base registered graph.hierarchy, ?_⟩
  have target {function : FunctionSignature} {parameter : FunctionParameter}
      (member : function ∈ (RigRuntime.standard registry.base).evaluations)
      (found : function.parameter? RuntimeName.target = some parameter) :
      parameter.pinType = .object registry.base := by
    rcases List.mem_cons.mp member with rfl | member
    · cases found
      rfl
    · rw [List.mem_singleton.mp member] at found
      cases found
      rfl
  intro function member parameter found
  rw [target member found]
  exact PinType.object_feeds_object_iff

end PassState

/-! Legs that were limbs when the graph was saved, and legs that some graph takes for actors. -/

namespace FormerLimbs

def registry : RigRegistry :=
  ⟨"Rig", .ofList [("Limb", ⟨"Limb", "Rig", []⟩), ("Leg", ⟨"Leg", "Rig", []⟩),
    ("Foot", ⟨"Foot", "Leg", []⟩)]⟩

def saved (legParent : String) : Graph :=
  (Graph.empty "FormerLimbs" none).mapHierarchy (·.register "Leg" legParent)

theorem built : registry.Built :=
  .register (.register (.register (.empty "Rig")
    (rfl : RigRegistry.register _ ⟨"Limb", "Rig", []⟩ = _))
    (rfl : RigRegistry.register _ ⟨"Leg", "Rig", []⟩ = _))
    (rfl : RigRegistry.register _ ⟨"Foot", "Leg", []⟩ = _)

theorem eq_limb_of_displaced {upper parent : String}
    (displaced : registry.Displaced (saved "Limb").hierarchy upper parent) : parent = "Limb" := by
  have found : (if "Leg" = upper then some "Limb" else none) = some parent := displaced.1
  split at found
  · exact (Option.some.inj found).symm
  · cases found

/-- A foot is known for a rig, though its leg still counts as a limb. -/
theorem start_knows_feet : registry.Built ∧ registry.contains "Foot" ∧
    (saved "Limb").hierarchy.parent? "Leg" = some "Limb" ∧
    (PassState.start registry .standard (saved "Limb")).graph.hierarchy.derivesFrom "Foot"
      "Rig" := by
  refine ⟨built, rfl, rfl, ?_⟩
  rcases (PassState.start_derivesFrom_base built (rfl : registry.contains "Foot" = true) .standard
    (saved "Limb")).1 with ⟨_, derives⟩ | ⟨upper, parent, _, displaced, derives⟩
  · exact derives
  · obtain rfl := eq_limb_of_displaced displaced
    exact derives.mpr (by decide)

/-- A graph may take a registered class for something else than a rig. -/
theorem not_always_known : ¬ ∀ (registry : RigRegistry) (options : PassOptions) (graph : Graph)
    (name : String), registry.Built → registry.contains name →
      (PassState.start registry options graph).graph.hierarchy.derivesFrom name registry.base := by
  intro known
  have derives := known registry .standard (saved "Actor") "Leg" built rfl
  revert derives
  decide

end FormerLimbs

end RigLowering
