import RigLowering.Proofs.AuthoredPass
import RigLowering.Proofs.KnownClasses

namespace RigLowering

namespace RigRegistry

variable {registry : RigRegistry} {hierarchy : ClassHierarchy} {name : String}

/-- The hierarchy leads up from the class to a registered one and not on to the base class, and
the class is not registered itself. -/
structure Straddles (registry : RigRegistry) (hierarchy : ClassHierarchy) (name : String) :
    Prop where
  unregistered : ¬ registry.contains name
  reaches : ∃ upper, registry.contains upper ∧ hierarchy.derivesFrom name upper
  stranded : ¬ hierarchy.derivesFrom name registry.base

theorem Built.derivesFrom_base_iff (built : registry.Built) :
    registry.hierarchy.derivesFrom name registry.base ↔ registry.Known name := by
  constructor
  · intro derives
    obtain ⟨steps, reached⟩ := ClassHierarchy.derivesFrom_iff_ascend.mp derives
    cases steps with
    | zero => exact .inl (Option.some.inj reached)
    | succ steps =>
        obtain ⟨parent, found, _⟩ := Option.bind_eq_some_iff.mp reached
        rw [parent?_hierarchy] at found
        obtain ⟨rigClass, registered, _⟩ := Option.map_eq_some_iff.mp found
        exact .inr (contains_iff.mpr ⟨rigClass, registered⟩)
  · rintro (rfl | registered)
    · exact ClassHierarchy.derivesFrom_self ..
    · exact built.derivesFrom_base registered

/-- The way up to the base class changes over from one hierarchy to the other only once: whatever
lies above a registered class is registered. -/
theorem Built.merge_derivesFrom_base_iff (built : registry.Built)
    (agrees : registry.AgreesWith hierarchy) :
    (hierarchy.merge registry.hierarchy).derivesFrom name registry.base ↔
      hierarchy.derivesFrom name registry.base ∨
        ∃ upper, registry.contains upper ∧ hierarchy.derivesFrom name upper := by
  constructor
  · intro derives
    obtain ⟨steps, reached⟩ := ClassHierarchy.derivesFrom_iff_ascend.mp derives
    clear derives
    induction steps generalizing name with
    | zero =>
        cases reached
        exact .inl (ClassHierarchy.derivesFrom_self ..)
    | succ steps ih =>
        obtain ⟨parent, found, onward⟩ := Option.bind_eq_some_iff.mp reached
        by_cases registered : registry.contains name
        · exact .inr ⟨name, registered, ClassHierarchy.derivesFrom_self ..⟩
        · have unknown : registry.find? name = none := Option.not_isSome_iff_eq_none.mp registered
          rw [ClassHierarchy.parent?_merge, parent?_hierarchy, unknown, Option.map_none,
            Option.or_none] at found
          have above {upper : String} (derives : hierarchy.derivesFrom parent upper) :
              hierarchy.derivesFrom name upper :=
            (ClassHierarchy.derivesFrom_iff_of_parent found).mpr (.inr derives)
          exact (ih onward).imp above fun ⟨upper, known, derives⟩ => ⟨upper, known, above derives⟩
  · have own {upper : String} (derives : hierarchy.derivesFrom name upper) :
        (hierarchy.merge registry.hierarchy).derivesFrom name upper :=
      ClassHierarchy.Extends.derivesFrom
        (@ClassHierarchy.extends_merge hierarchy registry.hierarchy) derives
    rintro (derives | ⟨upper, registered, derives⟩)
    · exact own derives
    · exact ClassHierarchy.derivesFrom_trans (own derives)
        (ClassHierarchy.Extends.derivesFrom agrees.extends_merge
          (built.derivesFrom_base registered))

end RigRegistry

namespace Graph

variable {graph : Graph} {registry : RigRegistry} {parent : String}

theorem acceptsEvaluators_iff (built : registry.Built)
    (given : graph.parentClass = some parent) :
    graph.acceptsEvaluators registry ↔
      registry.contains parent ∨ graph.hierarchy.derivesFrom parent registry.base := by
  unfold acceptsEvaluators
  simp only [given, Bool.or_eq_true, decide_eq_true_eq, built.derivesFrom_base_iff]
  constructor
  · rintro ((rfl | rfl | registered) | derives)
    · exact .inr (ClassHierarchy.derivesFrom_self ..)
    · exact .inr (ClassHierarchy.derivesFrom_self ..)
    · exact .inl registered
    · exact .inr derives
  · rintro (registered | derives)
    · exact .inl (.inr (.inr registered))
    · exact .inr derives

/-- Where the graph and the registry do not contradict each other, a graph takes evaluators just
where a pass over it knows its parent class for a rig, but for a class that straddles the two
hierarchies: a pass knows that for a rig, and the graph is refused. -/
theorem acceptsEvaluators_unless_straddling (built : registry.Built)
    (agrees : registry.AgreesWith graph.hierarchy) (given : graph.parentClass = some parent)
    (options : PassOptions) :
    let known := (PassState.start registry options graph).graph.hierarchy.derivesFrom parent
      registry.base
    (registry.Straddles graph.hierarchy parent →
        known = true ∧ graph.acceptsEvaluators registry = false) ∧
      (¬ registry.Straddles graph.hierarchy parent →
        graph.acceptsEvaluators registry = known) := by
  intro known
  have knownIff : known ↔ _ := built.merge_derivesFrom_base_iff agrees
  have acceptsIff := acceptsEvaluators_iff built given
  constructor
  · intro straddles
    refine ⟨knownIff.mpr (.inr straddles.reaches), Bool.eq_false_iff.mpr fun accepted => ?_⟩
    exact (acceptsIff.mp accepted).elim straddles.unregistered straddles.stranded
  · intro within
    refine Bool.eq_iff_iff.mpr (acceptsIff.trans (.trans ?_ knownIff.symm))
    constructor
    · rintro (registered | derives)
      · exact .inr ⟨parent, registered, ClassHierarchy.derivesFrom_self ..⟩
      · exact .inl derives
    · rintro (derives | reaches)
      · exact .inr derives
      · by_contra refused
        rw [not_or] at refused
        exact within ⟨refused.1, reaches, refused.2⟩

end Graph

/-! Boots, which are registered nowhere and are legs in the hierarchy of a graph. -/

namespace LacedBoot

def registry : RigRegistry :=
  ⟨"Rig", .ofList [("Leg", ⟨"Leg", "Rig", []⟩), ("Foot", ⟨"Foot", "Leg", []⟩)]⟩

def laced : ClassHierarchy :=
  ClassHierarchy.empty.register "Boot" "Leg"

def worn : ClassHierarchy :=
  laced.register "Leg" "Rig"

def graph (hierarchy : ClassHierarchy) : Graph :=
  { Graph.empty "LacedBoot" (some "Boot") with hierarchy }

theorem built : registry.Built :=
  .register (.register (.empty "Rig") (rfl : RigRegistry.register _ ⟨"Leg", "Rig", []⟩ = _))
    (rfl : RigRegistry.register _ ⟨"Foot", "Leg", []⟩ = _)

theorem agrees_laced : registry.AgreesWith laced := by
  intro name rigClass parent registered found
  rw [laced, ClassHierarchy.parent?_register] at found
  split at found
  · next boot =>
      subst boot
      cases (rfl : registry.find? "Boot" = none).symm.trans registered
  · cases found

theorem agrees_worn : registry.AgreesWith worn := by
  intro name rigClass parent registered found
  rw [worn, ClassHierarchy.parent?_register] at found
  split at found
  · next leg =>
      subst leg
      cases found
      cases (rfl : registry.find? "Leg" = some ⟨"Leg", "Rig", []⟩).symm.trans registered
      rfl
  · exact agrees_laced registered found

theorem straddles : registry.Straddles laced "Boot" where
  unregistered := by decide
  reaches := ⟨"Leg", by decide, by decide⟩
  stranded := by decide

theorem not_straddles : ¬ registry.Straddles worn "Boot" :=
  fun straddles => straddles.stranded (by decide)

/-- A graph below the boot takes evaluators only once its own hierarchy has the leg below the
rigs, though a pass over it knows that of the registry either way. -/
theorem takes_worn_only :
    (graph laced).acceptsEvaluators registry = false ∧
      (PassState.start registry .standard (graph laced)).graph.hierarchy.derivesFrom "Boot"
        "Rig" = true ∧
      (graph worn).acceptsEvaluators registry =
        (PassState.start registry .standard (graph worn)).graph.hierarchy.derivesFrom "Boot"
          "Rig" := by
  have placed (hierarchy : ClassHierarchy) (agrees : registry.AgreesWith hierarchy) :=
    @Graph.acceptsEvaluators_unless_straddling (graph hierarchy) registry "Boot" built agrees rfl
      .standard
  obtain ⟨known, refused⟩ := (placed laced agrees_laced).1 straddles
  exact ⟨refused, known, (placed worn agrees_worn).2 not_straddles⟩

/-- What a graph takes need not be what a pass over it knows. -/
theorem not_always_alike : ¬ ∀ (registry : RigRegistry) (options : PassOptions) (graph : Graph)
    (parent : String), registry.Built → registry.AgreesWith graph.hierarchy →
      graph.parentClass = some parent → graph.acceptsEvaluators registry =
        (PassState.start registry options graph).graph.hierarchy.derivesFrom parent
          registry.base := by
  intro alike
  have same := alike registry .standard (graph laced) "Boot" built agrees_laced rfl
  revert same
  decide

end LacedBoot

end RigLowering
