import RigLowering.Graph.Edit
import RigLowering.Proofs.WrittenRecords

namespace RigLowering

open Json (Printable ReadsBack optionalMember)

variable {room : Nat}

/-! Saving a hierarchy or a graph and loading it again loses nothing but an open checkpoint.  The
parents of a hierarchy may be written in any order. -/

namespace ClassHierarchy

/-- The document that lists the parents in this order. -/
def listed (listing : List (String × String)) : Json :=
  .object [("parents", .object (listing.map fun entry => (entry.1, .text entry.2)))]

theorem toJson_eq_listed (hierarchy : ClassHierarchy) :
    hierarchy.toJson = listed hierarchy.parents.entries :=
  rfl

variable {hierarchy : ClassHierarchy} {listing : List (String × String)}

theorem parentsOfJson?_listed (same : listing.Perm hierarchy.parents.entries) :
    parentsOfJson? (.object (listing.map fun entry => (entry.1, .text entry.2))) =
      some hierarchy.parents := by
  have entries : (listing.map fun entry => (entry.1, Json.text entry.2)).mapM
      (fun member => do return (member.1, ← Json.text? member.2)) = some listing :=
    Json.mapM_map_eq_some fun _ _ => rfl
  rw [parentsOfJson?, entries, ← NameMap.ofList_eq_of_perm same]
  rfl

theorem ofJson?_listed (same : listing.Perm hierarchy.parents.entries) :
    ofJson? (listed listing) = some hierarchy := by
  simp [ofJson?, listed, parentsOfJson?_listed same]

theorem printable_listed (listing : List (String × String)) :
    Printable (room + 2) (listed listing) := by
  have parents : Printable (room + 1)
      (.object (listing.map fun entry => (entry.1, .text entry.2))) := by
    refine .object fun member present => ?_
    obtain ⟨entry, _, rfl⟩ := List.mem_map.mp present
    exact .text entry.2
  exact .object (by simpa using parents)

theorem readsBack_listed (same : listing.Perm hierarchy.parents.entries) :
    ReadsBack (listed listing) ofJson? hierarchy :=
  (printable_listed listing).readsBack (ofJson?_listed same)

end ClassHierarchy

namespace Graph

/-- All identities in the graph are words. -/
@[mk_iff] structure Storable (graph : Graph) : Prop where
  nodes : ∀ node ∈ graph.nodes.toList, node.Storable
  pins : ∀ pin ∈ graph.livePins, pin.Storable

instance (graph : Graph) : Decidable graph.Storable :=
  decidable_of_iff _ (storable_iff graph).symm

/-- The document of the graph that lists the parents of its hierarchy in this order. -/
def listed (graph : Graph) (listing : List (String × String)) : Json :=
  .object <|
    ("name", .text graph.name) ::
      optionalMember "parent_class" Json.text graph.parentClass ++
      [("nodes", .array (graph.nodes.toList.map Node.toJson)),
        ("pins", .array (graph.pins.toList.map (Json.ofOption Pin.toJson))),
        ("hierarchy", ClassHierarchy.listed listing)]

/-- The graph may be written as this text, which depends on the order of its hierarchy alone. -/
def Writes (graph : Graph) (text : String) : Prop :=
  ∃ listing, listing.Perm graph.hierarchy.parents.entries ∧
    text = (graph.listed listing).indented 0

theorem writes_toText (graph : Graph) : graph.Writes graph.toText :=
  ⟨graph.hierarchy.parents.entries, .refl _, rfl⟩

variable {graph : Graph} {listing : List (String × String)}

theorem Storable.pin (storable : graph.Storable) {place : Option Pin}
    (listed : place ∈ graph.pins.toList) : ∀ pin ∈ place, pin.Storable := by
  rintro pin ⟨⟩
  exact storable.pins pin (List.mem_filterMap.mpr ⟨some pin, listed, rfl⟩)

theorem Storable.ofJson?_listed (storable : graph.Storable)
    (same : listing.Perm graph.hierarchy.parents.entries) :
    ofJson? (graph.listed listing) = some graph.commit := by
  have nodes := Json.list?_map fun node listed => (storable.nodes node listed).ofJson?_toJson
  have pins := Json.list?_map fun place listed =>
    Json.nullable?_ofOption (fun pin present => (storable.pin listed pin present).ofJson?_toJson)
      Pin.toJson_ne_null
  obtain ⟨name, parentClass, nodeArena, pinArena, hierarchy, undo⟩ := graph
  cases parentClass <;>
    simp [ofJson?, listed, optionalMember, nodes, pins, ClassHierarchy.ofJson?_listed same, commit]

theorem Storable.printable_listed (storable : graph.Storable) :
    Printable (room + 5) (graph.listed listing) := by
  apply Printable.object
  have nodes : Printable (room + 4) _ :=
    .list fun node listed => (storable.nodes node listed).printable
  have pins : Printable (room + 4) _ := .list fun place listed =>
    .ofOption fun pin present => (storable.pin listed pin present).printable
  obtain ⟨name, parentClass, nodeArena, pinArena, hierarchy, undo⟩ := graph
  cases parentClass <;>
    simp [optionalMember, Printable.text, nodes, pins, ClassHierarchy.printable_listed]

theorem Storable.ofText_of_writes (storable : graph.Storable) {text : String}
    (writes : graph.Writes text) : ofText text = .ok graph.commit := by
  obtain ⟨listing, same, rfl⟩ := writes
  exact (storable.printable_listed.readsBack (storable.ofJson?_listed same)).indented 0

/-- Compiling a text is loading the graph from it and compiling that. -/
theorem compileText_eq_bind (text : String) (registry : RigRegistry) (runtime : RigRuntime)
    (options : PassOptions) :
    compileText text registry runtime options =
      (ofText text).bind (·.compile registry runtime options) := by
  rw [compileText, ofText, Json.decodeText]
  cases Json.parse? text with
  | none => rfl
  | some json =>
      rw [Option.bind_some]
      dsimp only
      rw [compileDocument]
      cases ofJson? json <;> rfl

end Graph

/-- Reading a document undoes writing it, for each record, as long as the identities and counters
in it are words; and a graph that is loaded from any of its texts compiles as it would have without
being saved. -/
theorem saving_loses_nothing :
    (∀ graph : Graph, graph.Storable → graph.Writes graph.toText ∧
      ∀ text, graph.Writes text → Graph.ofText text = .ok { graph with undo := none } ∧
        ∀ registry runtime options, Graph.compileText text registry runtime options =
          Graph.compile { graph with undo := none } registry runtime options) ∧
    (∀ pinType : PinType, ReadsBack pinType.toJson PinType.ofJson? pinType) ∧
    (∀ pin : Pin, pin.Storable → ReadsBack pin.toJson Pin.ofJson? pin) ∧
    (∀ node : Node, node.Storable → ReadsBack node.toJson Node.ofJson? node) ∧
    (∀ kind : NodeKind, ReadsBack kind.toJson NodeKind.ofJson? kind) ∧
    (∀ settings : EvaluatorSettings,
      ReadsBack settings.toJson EvaluatorSettings.ofJson? settings) ∧
    (∀ field : Field, ReadsBack field.toJson Field.ofJson? field) ∧
    (∀ rigClass : RigClass, ReadsBack rigClass.toJson RigClass.ofJson? rigClass) ∧
    (∀ function : FunctionSignature,
      ReadsBack function.toJson FunctionSignature.ofJson? function) ∧
    (∀ table : RuntimeTable, ReadsBack table.toJson RuntimeTable.ofJson? table) ∧
    (∀ hierarchy : ClassHierarchy, ReadsBack hierarchy.toJson ClassHierarchy.ofJson? hierarchy ∧
      ∀ listing : List (String × String), listing.Perm hierarchy.parents.entries →
        ReadsBack (ClassHierarchy.listed listing) ClassHierarchy.ofJson? hierarchy) ∧
    (∀ diagnostic : Diagnostic, diagnostic.Storable →
      ReadsBack diagnostic.toJson Diagnostic.ofJson? diagnostic) ∧
    (∀ log : MessageLog, log.Storable → ReadsBack log.toJson MessageLog.ofJson? log) ∧
    (∀ stats : PassStats, stats.Storable → ReadsBack stats.toJson PassStats.ofJson? stats) ∧
    (∀ options : PassOptions, ReadsBack options.toJson PassOptions.ofJson? options) := by
  refine ⟨fun graph storable => ⟨graph.writes_toText, fun text writes => ?_⟩,
    fun pinType => pinType.printable.readsBack pinType.ofJson?_toJson,
    fun pin storable => storable.printable.readsBack storable.ofJson?_toJson,
    fun node storable => storable.printable.readsBack storable.ofJson?_toJson,
    fun kind => kind.printable.readsBack kind.ofJson?_toJson,
    fun settings => settings.printable.readsBack settings.ofJson?_toJson,
    fun field => field.printable.readsBack field.ofJson?_toJson,
    fun rigClass => rigClass.printable.readsBack rigClass.ofJson?_toJson,
    fun function => function.printable.readsBack function.ofJson?_toJson,
    fun table => table.printable.readsBack table.ofJson?_toJson,
    fun hierarchy => ⟨hierarchy.toJson_eq_listed ▸ ClassHierarchy.readsBack_listed (.refl _),
      fun _ same => ClassHierarchy.readsBack_listed same⟩,
    fun diagnostic storable => storable.printable.readsBack storable.ofJson?_toJson,
    fun log storable => storable.printable.readsBack storable.ofJson?_toJson,
    fun stats storable => storable.printable.readsBack storable.ofJson?_toJson,
    fun options => options.printable.readsBack options.ofJson?_toJson⟩
  have loads : Graph.ofText text = .ok { graph with undo := none } :=
    storable.ofText_of_writes writes
  refine ⟨loads, fun registry runtime options => ?_⟩
  rw [Graph.compileText_eq_bind, loads]
  rfl

/-! A graph in the middle of an edit, with names that need escapes, a pin that is gone and a node
that an expansion has left. -/

namespace SavedLeg

def settings : EvaluatorSettings :=
  { EvaluatorSettings.unset with
    rigType := some "Leg", disabledInputs := .ofNames ["reach", "\"heel\""] }

def outputPin : Pin where
  id := ⟨0⟩
  owner := ⟨0⟩
  name := "foot\tposition"
  direction := .output
  pinType := .arrayOf (.struct "Vector")
  defaultValue := none
  defaultObject := some "C:\\rigs"
  links := [⟨2⟩]

def inputPin : Pin where
  id := ⟨2⟩
  owner := ⟨1⟩
  name := "\x01"
  direction := .input
  pinType := .wildcard
  defaultValue := some ""
  defaultObject := none
  links := [⟨0⟩]

def evaluator : Node := ⟨⟨0⟩, .evaluator settings, [⟨0⟩], none⟩

def event : Node := ⟨⟨1⟩, .event "OnStep" "Step_2", [⟨2⟩], some ⟨0⟩⟩

def graph : Graph where
  name := "walk\ncycle"
  parentClass := some "Actor"
  nodes := #[evaluator, event]
  pins := #[some outputPin, none, some inputPin]
  hierarchy := ⟨.ofList [("Leg", "Rig"), ("Foot", "Leg")]⟩
  undo := some ⟨⟨1, [(0, evaluator)]⟩, ⟨2, []⟩, none⟩

def diagnostic : Diagnostic := ⟨.warning, some ⟨0⟩, "no pin \"toe\""⟩

def log : MessageLog := ⟨[diagnostic, ⟨.note, none, "done"⟩]⟩

def stats : PassStats := ⟨1, 1, 0, 0, 3, 7⟩

/-- The tombstone and the link survive, the checkpoint does not. -/
theorem survives_saving : graph.undo.isSome ∧
    Graph.ofText graph.toText = .ok { graph with undo := none } ∧
    Graph.compileText graph.toText (.empty "Rig") (.standard "Rig") .standard =
      Graph.compile { graph with undo := none } (.empty "Rig") (.standard "Rig") .standard ∧
    ReadsBack outputPin.toJson Pin.ofJson? outputPin ∧
    ReadsBack event.toJson Node.ofJson? event ∧
    ReadsBack (ClassHierarchy.listed [("Leg", "Rig"), ("Foot", "Leg")]) ClassHierarchy.ofJson?
      graph.hierarchy ∧
    ReadsBack diagnostic.toJson Diagnostic.ofJson? diagnostic ∧
    ReadsBack log.toJson MessageLog.ofJson? log ∧
    ReadsBack stats.toJson PassStats.ofJson? stats := by
  obtain ⟨graphs, _, pins, nodes, _, _, _, _, _, _, hierarchies, diagnostics, logs, stats, _⟩ :=
    saving_loses_nothing
  obtain ⟨writes, loads⟩ := graphs graph (by decide)
  obtain ⟨loaded, compiled⟩ := loads graph.toText writes
  refine ⟨rfl, loaded, compiled _ _ _, pins _ (by decide), nodes _ (by decide),
    (hierarchies _).2 _ ?_, diagnostics _ (by decide), logs _ (by decide), stats _ (by decide)⟩
  exact .swap ..

end SavedLeg

end RigLowering
