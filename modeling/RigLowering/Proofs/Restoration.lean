import Mathlib.Data.List.Pairwise
import RigLowering.Proofs.LinkCounts

namespace RigLowering

namespace PinSpec

theorem Distinct.eq_of_mem {specs : List PinSpec} (distinct : Distinct specs)
    {first second : PinSpec} (firstListed : first ∈ specs) (secondListed : second ∈ specs)
    (direction : first.direction = second.direction) (name : first.name = second.name) :
    first = second := by
  by_contra different
  have : Std.Symm fun first second : PinSpec =>
      ¬ (second.direction = first.direction ∧ second.name = first.name) :=
    ⟨fun _ _ apart same => apart ⟨same.1.symm, same.2.symm⟩⟩
  exact distinct.forall firstListed secondListed different ⟨direction.symm, name.symm⟩

/-- A pin that is made so can be linked to one across from it that is of the type `far`. -/
def joins (spec : PinSpec) (hierarchy : ClassHierarchy) (far : PinType) : Bool :=
  match spec.direction with
  | .output => spec.pinType.feeds hierarchy far
  | .input => far.feeds hierarchy spec.pinType

/-- The literal that a pin is made with. -/
def literal (spec : PinSpec) : Option String :=
  if spec.direction = .input then spec.pinType.defaultLiteral else none

/-- What becomes of the literal when that of `old` is restored. -/
def carryOver (spec : PinSpec) (value : Option String) (old : Pin) : Option String :=
  if spec.direction = .input ∧ old.face.spec = spec then old.defaultValue <|> value else value

end PinSpec

namespace Graph

/-- A pin of another node and of the other direction. -/
def Across (graph : Graph) (node : NodeId) (direction : PinDirection) (far : PinId) : Prop :=
  ∃ face, graph.face? far = some face ∧ face.direction ≠ direction ∧ face.owner ≠ node

def fits (graph : Graph) (spec : PinSpec) (far : PinId) : Bool :=
  (graph.face? far).any fun face => spec.joins graph.hierarchy face.pinType

/-- Among the specifications is one for a pin that can have the link. -/
def restores (graph : Graph) (specs : List PinSpec) (link : NamedLink) : Bool :=
  specs.any fun spec =>
    spec.direction = link.direction && spec.name = link.name && graph.fits spec link.far

/-- One of the links can be restored, between the pins `new` and `far`. -/
def Renews (graph : Graph) (node : NodeId) (links : List NamedLink) (new far : PinId) : Prop :=
  ∃ spec, graph.HasPin node spec new ∧ ⟨spec.direction, spec.name, far⟩ ∈ links ∧
    graph.fits spec far

/-- Those of the links have been restored that can be. -/
structure Relinked (specs : List PinSpec) (node : NodeId) (links : List NamedLink) (lost : Nat)
    (before after : Graph) : Prop where
  frame : before.SameFrame after
  regular : after.Regular
  hierarchy : after.hierarchy = before.hierarchy
  mem_links_iff : ∀ {id far}, far ∈ after.links id ↔
    far ∈ before.links id ∨ before.Renews node links id far ∨ before.Renews node links far id
  lost_eq : lost = links.countP fun link => !before.restores specs link

variable {graph before middle after : Graph} {node : NodeId} {specs : List PinSpec}
  {spec : PinSpec} {links further : List NamedLink} {lost more : Nat} {new far : PinId}

theorem HasPin.spec_eq {otherSpec : PinSpec} (hasPin : graph.HasPin node spec new)
    (otherwise : graph.HasPin node otherSpec new) : spec = otherSpec := by
  obtain ⟨face, found, _, rfl⟩ := hasPin
  obtain ⟨_, sameFound, _, rfl⟩ := otherwise
  cases found.symm.trans sameFound
  rfl

theorem Across.linkable_iff (across : graph.Across node spec.direction far)
    (hasPin : graph.HasPin node spec new) : graph.Linkable new far ↔ graph.fits spec far := by
  obtain ⟨farFace, farFound, unlike, away⟩ := across
  obtain ⟨face, found, rfl, rfl⟩ := hasPin
  have opposed : farFace.direction = face.direction.opposite :=
    PinDirection.eq_opposite_of_ne unlike
  rw [fits, farFound, Option.any_some]
  constructor
  · rintro (⟨output, input, outputFound, inputFound, forward, backward, _, feeds⟩ |
      ⟨output, input, outputFound, inputFound, forward, backward, _, feeds⟩)
    · cases found.symm.trans outputFound
      cases farFound.symm.trans inputFound
      rw [PinSpec.joins, show face.spec.direction = .output from forward]
      exact feeds
    · cases found.symm.trans inputFound
      cases farFound.symm.trans outputFound
      rw [PinSpec.joins, show face.spec.direction = .input from backward]
      exact feeds
  · intro fitting
    cases toward : face.direction with
    | output =>
        rw [PinSpec.joins, show face.spec.direction = .output from toward] at fitting
        rw [toward] at opposed
        exact .inl ⟨face, farFace, found, farFound, toward, opposed, away.symm, fitting⟩
    | input =>
        rw [PinSpec.joins, show face.spec.direction = .input from toward] at fitting
        rw [toward] at opposed
        exact .inr ⟨farFace, face, farFound, found, opposed, toward, away, fitting⟩

theorem SameFrame.hasPin_iff (frame : before.SameFrame after) :
    after.HasPin node spec new ↔ before.HasPin node spec new := by
  unfold HasPin
  rw [frame.face]

theorem SameFrame.across_iff (frame : before.SameFrame after) {direction : PinDirection} :
    after.Across node direction far ↔ before.Across node direction far := by
  unfold Across
  rw [frame.face]

theorem SameFrame.fits_eq (frame : before.SameFrame after)
    (hierarchy : after.hierarchy = before.hierarchy) :
    after.fits spec far = before.fits spec far := by
  rw [fits, fits, frame.face, hierarchy]

theorem SameFrame.restores_eq (frame : before.SameFrame after)
    (hierarchy : after.hierarchy = before.hierarchy) (link : NamedLink) :
    after.restores specs link = before.restores specs link := by
  unfold restores
  simp only [frame.fits_eq hierarchy]

theorem SameFrame.renews_iff (frame : before.SameFrame after)
    (hierarchy : after.hierarchy = before.hierarchy) :
    after.Renews node links new far ↔ before.Renews node links new far := by
  unfold Renews
  simp only [frame.hasPin_iff, frame.fits_eq hierarchy]

theorem renews_append_iff : graph.Renews node (links ++ further) new far ↔
    graph.Renews node links new far ∨ graph.Renews node further new far := by
  simp only [Renews, List.mem_append, ← exists_or]
  exact exists_congr fun _ => by tauto

theorem renews_singleton_iff (regular : graph.Regular) (hasPin : graph.HasPin node spec new)
    {id other : PinId} : graph.Renews node [⟨spec.direction, spec.name, far⟩] id other ↔
      graph.fits spec far ∧ id = new ∧ other = far := by
  simp only [Renews, List.mem_singleton, NamedLink.mk.injEq]
  constructor
  · rintro ⟨otherSpec, otherHasPin, ⟨direction, name, rfl⟩, fitting⟩
    obtain rfl := hasPin.eq_of_port regular (direction ▸ name ▸ otherHasPin.port)
    rw [hasPin.spec_eq otherHasPin]
    exact ⟨fitting, rfl, rfl⟩
  · rintro ⟨fitting, rfl, rfl⟩
    exact ⟨spec, hasPin, ⟨rfl, rfl, rfl⟩, fitting⟩

/-- No other specification has the name and the direction. -/
theorem restores_of_mem (distinct : PinSpec.Distinct specs) (listed : spec ∈ specs) :
    graph.restores specs ⟨spec.direction, spec.name, far⟩ = graph.fits spec far := by
  rw [Bool.eq_iff_iff, restores, List.any_eq_true]
  simp only [Bool.and_eq_true, decide_eq_true_eq]
  constructor
  · rintro ⟨other, otherListed, ⟨direction, name⟩, fitting⟩
    rwa [distinct.eq_of_mem otherListed listed direction name] at fitting
  · intro fitting
    exact ⟨spec, listed, ⟨rfl, rfl⟩, fitting⟩

namespace Relinked

theorem of_links_eq (frame : before.SameFrame after) (regular : after.Regular)
    (hierarchy : after.hierarchy = before.hierarchy) (same : after.links = before.links) :
    Relinked specs node [] 0 before after where
  frame := frame
  regular := regular
  hierarchy := hierarchy
  mem_links_iff := by simp [Renews, same]
  lost_eq := rfl

theorem refl (regular : graph.Regular) : Relinked specs node [] 0 graph graph :=
  .of_links_eq (.refl graph) regular rfl rfl

theorem append (first : Relinked specs node links lost before middle)
    (second : Relinked specs node further more middle after) :
    Relinked specs node (links ++ further) (lost + more) before after where
  frame := first.frame.trans second.frame
  regular := second.regular
  hierarchy := second.hierarchy.trans first.hierarchy
  mem_links_iff := by
    intro id far
    rw [second.mem_links_iff, first.mem_links_iff, first.frame.renews_iff first.hierarchy,
      first.frame.renews_iff first.hierarchy, renews_append_iff, renews_append_iff]
    tauto
  lost_eq := by
    have same := @SameFrame.restores_eq _ _ specs first.frame first.hierarchy
    simp only [first.lost_eq, second.lost_eq, same, List.countP_append]

end Relinked

/-- Of the pins `old` all that fits has been restored: links, and the literals of inputs. -/
structure Restored (specs : List PinSpec) (node : NodeId) (old : List Pin) (lost : Nat)
    (before after : Graph) : Prop
    extends Relinked specs node (old.flatMap Pin.namedLinks) lost before after where
  literals : ∀ {spec id}, before.HasPin node spec id →
    after.literals id = (old.foldl spec.carryOver (before.literals id).1, (before.literals id).2)
  elsewhere : ∀ {id}, ¬ before.Owns node id → after.literals id = before.literals id

theorem Restored.refl (regular : graph.Regular) : Restored specs node [] 0 graph graph where
  toRelinked := .refl regular
  literals := fun _ => rfl
  elsewhere := fun _ => rfl

theorem Carries.mem_specs (carries : graph.Carries node specs) (regular : graph.Regular)
    (hasPin : graph.HasPin node spec new) : spec ∈ specs := by
  obtain ⟨data, found, pins⟩ := carries
  obtain ⟨face, faceFound, owner, rfl⟩ := id hasPin
  obtain ⟨other, listed, otherwise⟩ :=
    exists_spec_of_mem pins ((regular.mem_pins_iff found).mpr ⟨face, faceFound, owner⟩)
  rwa [hasPin.spec_eq otherwise]

/-- Where no new pin takes the place of the old one, all its links are lost. -/
theorem Restored.of_unreplaced {old : Pin} (regular : graph.Regular)
    (carries : graph.Carries node specs)
    (unreplaced : ∀ spec ∈ specs, ¬ (spec.direction = old.direction ∧ spec.name = old.name)) :
    Restored specs node [old] old.links.length graph graph where
  frame := .refl graph
  regular := regular
  hierarchy := rfl
  mem_links_iff := by
    have none {id far : PinId} : ¬ graph.Renews node ([old].flatMap Pin.namedLinks) id far := by
      rintro ⟨spec, hasPin, listed, _⟩
      rw [List.flatMap_singleton, Pin.namedLinks] at listed
      obtain ⟨_, _, same⟩ := List.mem_map.mp listed
      rw [NamedLink.mk.injEq] at same
      exact unreplaced spec (carries.mem_specs regular hasPin) ⟨same.1.symm, same.2.1.symm⟩
    intro id far
    rw [or_iff_left (not_or.mpr ⟨none, none⟩)]
  lost_eq := by
    rw [List.flatMap_singleton, eq_comm, List.countP_eq_length.mpr ?_, Pin.namedLinks,
      List.length_map]
    intro link listed
    obtain ⟨_, _, rfl⟩ := List.mem_map.mp listed
    rw [Bool.not_eq_true', restores, List.any_eq_false]
    intro spec member
    simp only [Bool.and_eq_true, decide_eq_true_eq]
    exact fun matching => unreplaced spec member matching.1
  literals := by
    intro spec id hasPin
    rw [List.foldl_cons, List.foldl_nil, PinSpec.carryOver, if_neg]
    rintro ⟨_, rfl⟩
    exact unreplaced _ (carries.mem_specs regular hasPin) ⟨rfl, rfl⟩
  elsewhere := fun _ => rfl

theorem Restored.append {old rest : List Pin} (first : Restored specs node old lost before middle)
    (second : Restored specs node rest more middle after) :
    Restored specs node (old ++ rest) (lost + more) before after where
  toRelinked := by
    rw [List.flatMap_append]
    exact first.toRelinked.append second.toRelinked
  literals := by
    intro spec id hasPin
    rw [second.literals (first.frame.hasPin_iff.mpr hasPin), first.literals hasPin,
      List.foldl_append]
  elsewhere := by
    intro id foreign
    have stays : ¬ middle.Owns node id := by
      rwa [Owns, first.frame.face]
    rw [second.elsewhere stays, first.elsewhere foreign]

end Graph

namespace Edit

open RigLowering.Graph

variable {before after : Graph} {node : NodeId} {specs : List PinSpec} {spec : PinSpec}
  {lost : Nat} {new far : PinId}

/-- One link is restored if it fits. -/
theorem relinked_of_relink (regular : before.Regular) (listed : spec ∈ specs)
    (distinct : PinSpec.Distinct specs)
    (hasPin : before.HasPin node spec new) (across : before.Across node spec.direction far)
    (yielded : Yields (relink new far) before lost after) :
    Relinked specs node [⟨spec.direction, spec.name, far⟩] lost before after := by
  obtain ⟨_, found, _⟩ := id hasPin
  obtain ⟨farFace, farFound, _⟩ := id across
  have fitting := across.linkable_iff hasPin
  have restored := @restores_of_mem before _ _ far distinct listed
  rcases relink_cases ⟨_, found⟩ ⟨_, farFound⟩ with
    ⟨linkable, _, linked, done⟩ | ⟨refused, failed⟩
  · cases done.symm.trans yielded
    obtain ⟨frame, _, members⟩ := yields_link regular.toSound linked
    refine ⟨frame, (link_keeps_regular _ _).holds_after linked regular,
      ((kept_hierarchy _).link _ _).holds_after linked rfl, ?_, ?_⟩
    · intro id other
      rw [members, renews_singleton_iff regular hasPin, renews_singleton_iff regular hasPin]
      simp only [fitting.mp linkable, true_and]
      tauto
    · simp [restored, fitting.mp linkable]
  · cases failed.symm.trans yielded
    have unfitting : before.fits spec far = false := by
      rw [← Bool.not_eq_true, ← fitting]
      exact refused
    refine ⟨.refl before, regular, rfl, ?_, ?_⟩
    · intro id other
      rw [renews_singleton_iff regular hasPin, renews_singleton_iff regular hasPin]
      simp [unfitting]
    · simp [restored, unfitting]

/-- What steps come to one after another, if each adds its own part. -/
theorem effect_of_mapM {α : Type} {step : α → Edit Nat} {values : List α} {counts : List Nat}
    (effect : List α → Nat → Graph → Graph → Prop) (regular : before.Regular)
    (nil : ∀ {middle}, Framed before middle → effect [] 0 middle middle)
    (cons : ∀ value ∈ values, ∀ {rest lost more middle later last}, Framed before middle →
      Yields (step value) middle lost later → Framed middle later ∧
        (effect rest more later last → effect (value :: rest) (lost + more) middle last))
    (yielded : Yields (values.mapM step) before counts after) :
    effect values (total counts) before after := by
  suffices ∀ middle, Framed before middle → Yields (values.mapM step) middle counts after →
      effect values (total counts) middle after from
    this before ⟨.refl before, regular⟩ yielded
  clear yielded
  induction values generalizing counts with
  | nil =>
      intro middle framed yielded
      obtain ⟨rfl, rfl⟩ := yields_pure_iff.mp yielded
      exact nil framed
  | cons value rest ih =>
      intro middle framed yielded
      obtain ⟨first, others⟩ := List.forall_mem_cons.mp cons
      rw [List.mapM_cons] at yielded
      obtain ⟨lost, later, stepped, restYielded⟩ := yields_bind_iff.mp yielded
      obtain ⟨restCounts, last, ran, returned⟩ := yields_bind_iff.mp restYielded
      obtain ⟨rfl, rfl⟩ := yields_pure_iff.mp returned
      obtain ⟨⟨frame, laterRegular⟩, add⟩ := first framed stepped
      exact add (ih others later ⟨framed.1.trans frame, laterRegular⟩ ran)

theorem relinked_of_mapM_relink {fars : List PinId} {counts : List Nat} (regular : before.Regular)
    (distinct : PinSpec.Distinct specs) (listed : spec ∈ specs)
    (hasPin : before.HasPin node spec new)
    (across : ∀ far ∈ fars, before.Across node spec.direction far)
    (yielded : Yields (fars.mapM (relink new)) before counts after) :
    Relinked specs node (fars.map (⟨spec.direction, spec.name, ·⟩)) (total counts) before
      after := by
  refine effect_of_mapM
    (fun fars lost => Relinked specs node (fars.map (⟨spec.direction, spec.name, ·⟩)) lost) regular
    (fun framed => .refl framed.2) ?_ yielded
  intro far member rest lost more middle later last framed relinked
  have first := relinked_of_relink framed.2 listed distinct (framed.1.hasPin_iff.mpr hasPin)
    (framed.1.across_iff.mpr (across far member)) relinked
  exact ⟨⟨first.frame, first.regular⟩, fun others => first.append others⟩

theorem restoreLiteral_effect {old : Pin} (regular : before.Regular)
    (hasPin : before.HasPin node spec new) (direction : spec.direction = old.direction)
    (name : spec.name = old.name) (yielded : Yields (restoreLiteral new old) before () after) :
    before.SameFrame after ∧ after.Regular ∧ after.hierarchy = before.hierarchy ∧
      after.links = before.links ∧
      after.literals new = (spec.carryOver (before.literals new).1 old, (before.literals new).2) ∧
      ∀ id, id ≠ new → after.literals id = before.literals id := by
  obtain ⟨pin, _, read, changing⟩ := yields_bind_iff.mp yielded
  obtain ⟨rfl, live⟩ := yields_pin_iff.mp read
  have sameType : pin.pinType = old.pinType ↔ old.face.spec = spec := by
    obtain ⟨face, found, _, rfl⟩ := hasPin
    cases found.symm.trans (face?_of_pin? live)
    rw [PinFace.spec, PinFace.spec, PinSpec.mk.injEq]
    exact ⟨fun same => ⟨direction.symm, same.symm, name.symm⟩, fun same => same.2.1.symm⟩
  split at changing
  · next restores =>
      obtain ⟨input, typed, given⟩ := restores
      obtain ⟨value, literal⟩ := Option.isSome_iff_exists.mp given
      have changed : Yields (modifyPin new (·.setLiterals (fun _ => old.defaultValue)
        (·.defaultObject))) _ () after := changing
      rw [Yields, modifyPin_apply, live] at changed
      cases changed
      refine ⟨changePin_sameFrame _ _ fun _ => rfl, kept_regular.withLiterals _ _ _ regular, rfl,
        funext (links_changePin_setLiterals _ _ _ _), ?_,
        fun id other => literals_changePin_of_ne _ _ other.symm⟩
      rw [PinSpec.carryOver, if_pos ⟨direction.trans input, sameType.mp typed⟩,
        literals_of_pin? (by rw [pin?_changePin, if_pos rfl, live]; rfl), literals_of_pin? live,
        literal]
      rfl
  · next refused =>
      obtain ⟨_, rfl⟩ := yields_pure_iff.mp changing
      refine ⟨.refl after, regular, rfl, rfl, ?_, fun _ _ => rfl⟩
      rw [PinSpec.carryOver]
      split
      · next matching =>
          have missing : old.defaultValue = none := by
            rw [← Option.not_isSome_iff_eq_none]
            exact fun given => refused ⟨direction.symm.trans matching.1, sameType.mpr matching.2,
              given⟩
          rw [missing]
          rfl
      · rfl

/-- The pin that takes the place of the old one gets its literal and its links. -/
theorem restored_of_replaced {old : Pin} {counts : List Nat} {middle : Graph}
    (regular : before.Regular) (distinct : PinSpec.Distinct specs) (listed : spec ∈ specs)
    (hasPin : before.HasPin node spec new) (direction : spec.direction = old.direction)
    (name : spec.name = old.name) (across : ∀ far ∈ old.links, before.Across node old.direction far)
    (literal : Yields (restoreLiteral new old) before () middle)
    (relinked : Yields (old.links.mapM (relink new)) middle counts after) :
    Restored specs node [old] (total counts) before after := by
  obtain ⟨frame, middleRegular, hierarchy, links, changed, others⟩ :=
    restoreLiteral_effect regular hasPin direction name literal
  have moved := relinked_of_mapM_relink middleRegular distinct listed
    (frame.hasPin_iff.mpr hasPin)
    (fun far linked => by
      rw [frame.across_iff, direction]
      exact across far linked) relinked
  have literals := (Keeps.mapM (keeps_relink link_keeps_literals new)
    old.links).holds_after relinked rfl
  refine ⟨?_, ?_, ?_⟩
  · have whole := (Relinked.of_links_eq frame middleRegular hierarchy links).append moved
    rw [List.nil_append, Nat.zero_add, direction, name] at whole
    rw [List.flatMap_singleton]
    exact whole
  · intro other id otherHasPin
    rw [literals, List.foldl_cons, List.foldl_nil]
    by_cases same : id = new
    · subst same
      rw [changed, hasPin.spec_eq otherHasPin]
    · rw [others id same, PinSpec.carryOver, if_neg]
      rintro ⟨_, rfl⟩
      refine same (hasPin.eq_of_port regular ?_)
      rw [direction, name]
      exact otherHasPin.port
  · intro id foreign
    rw [literals]
    refine others id ?_
    rintro rfl
    exact foreign hasPin.owns

theorem restored_of_restorePin {old : Pin} (regular : before.Regular)
    (distinct : PinSpec.Distinct specs) (carries : before.Carries node specs)
    (across : ∀ far ∈ old.links, before.Across node old.direction far)
    (yielded : Yields (restorePin node old) before lost after) :
    Restored specs node [old] lost before after := by
  obtain ⟨data, dataFound, pins⟩ := id carries
  obtain ⟨answer, _, searched, restoring⟩ := yields_bind_iff.mp yielded
  obtain ⟨rfl, found⟩ := yields_query_iff.mp searched
  rw [findPin?_of_node? dataFound] at found
  have outcome := findPinAmong_eq_ok found
  cases answer with
  | none =>
      obtain ⟨rfl, rfl⟩ := yields_pure_iff.mp restoring
      refine .of_unreplaced regular carries fun spec listed matching => ?_
      obtain ⟨id, face, faceFound, owner, rfl⟩ := carries.exists_pin listed
      exact outcome id ((regular.mem_pins_iff dataFound).mpr ⟨face, faceFound, owner⟩) face
        faceFound ⟨matching.2, matching.1⟩
  | some new =>
      obtain ⟨member, face, newFound, name, direction⟩ := outcome
      obtain ⟨spec, listed, hasPin⟩ := exists_spec_of_mem pins member
      obtain ⟨⟨⟩, middle, literal, relinking⟩ := yields_bind_iff.mp restoring
      obtain ⟨counts, last, relinked, returned⟩ := yields_bind_iff.mp relinking
      obtain ⟨rfl, rfl⟩ := yields_pure_iff.mp returned
      obtain ⟨_, sameFound, _, rfl⟩ := id hasPin
      cases newFound.symm.trans sameFound
      exact restored_of_replaced regular distinct listed hasPin direction name across literal
        relinked

theorem restored_of_mapM {old : List Pin} {counts : List Nat} (regular : before.Regular)
    (distinct : PinSpec.Distinct specs) (carries : before.Carries node specs)
    (across : ∀ pin ∈ old, ∀ far ∈ pin.links, before.Across node pin.direction far)
    (yielded : Yields (old.mapM (restorePin node)) before counts after) :
    Restored specs node old (total counts) before after := by
  refine effect_of_mapM (Restored specs node) regular (fun framed => .refl framed.2) ?_ yielded
  intro pin member rest lost more middle later last framed restored
  have unharmed : Unharmed node before middle :=
    ⟨framed.1.node node, fun found _ => (framed.1.face _).trans found⟩
  have first := restored_of_restorePin framed.2 distinct (unharmed.carries carries)
    (fun far linked => framed.1.across_iff.mpr (across pin member far linked)) restored
  exact ⟨⟨first.frame, first.regular⟩, fun others => first.append others⟩

end Edit

end RigLowering
