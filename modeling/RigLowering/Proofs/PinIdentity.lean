import RigLowering.Proofs.GraphCommands

namespace RigLowering

namespace Graph

/-- The graph has come about from `base`: every place that `base` has for a pin holds what it held
there, links and literals apart, or nothing. -/
structure Inherits (base graph : Graph) : Prop extends Regular graph where
  pinCount : base.pins.size ≤ graph.pins.size
  face : ∀ {id}, id.index < base.pins.size →
    graph.face? id = none ∨ graph.face? id = base.face? id

section Inherits

variable {base before graph after : Graph} {id : PinId}

theorem Regular.inherits (regular : graph.Regular) : Inherits graph graph where
  toRegular := regular
  pinCount := Nat.le_refl _
  face := fun _ => .inr rfl

/-- What a place has lost it does not get back. -/
theorem Inherits.face?_eq_none (inherits : Inherits base graph) (old : id.index < base.pins.size)
    (absent : base.face? id = none) : graph.face? id = none := by
  rcases inherits.face old with gone | same
  · exact gone
  · exact same.trans absent

theorem Inherits.face?_eq_some (inherits : Inherits base graph) {face later : PinFace}
    (found : base.face? id = some face) (laterFound : graph.face? id = some later) :
    later = face := by
  rcases inherits.face (lt_size_of_face? found) with gone | same
  · cases laterFound.symm.trans gone
  · exact Option.some.inj (laterFound.symm.trans (same.trans found))

theorem Inherits.of_face (inherits : Inherits base before) (regular : after.Regular)
    (size : before.pins.size ≤ after.pins.size)
    (face : ∀ {id}, id.index < before.pins.size → after.face? id = before.face? id) :
    Inherits base after where
  toRegular := regular
  pinCount := Nat.le_trans inherits.pinCount size
  face := by
    intro id old
    rw [face (Nat.lt_of_lt_of_le old inherits.pinCount)]
    exact inherits.face old

theorem Inherits.of_frame (inherits : Inherits base before) (frame : before.SameFrame after)
    (regular : after.Regular) : Inherits base after :=
  inherits.of_face regular (Nat.le_of_eq frame.pinCount.symm) fun _ => frame.face _

theorem Inherits.removed (inherits : Inherits base before) (removed : before.Removed after id)
    (size : after.pins.size = before.pins.size) : Inherits base after where
  toRegular := inherits.toRegular.removed removed
  pinCount := size ▸ inherits.pinCount
  face := by
    intro other old
    rw [removed.face]
    split
    · exact .inl rfl
    · exact inherits.face old

end Inherits

theorem kept_inherits (base : Graph) : Kept (Inherits base) where
  withNode := fun kind source inherits =>
    inherits.of_face (inherits.toRegular.withNode kind source) (Nat.le_refl _) fun _ => rfl
  withSettings := fun node change inherits =>
    inherits.of_face (inherits.toRegular.withSettings node change) (Nat.le_refl _) fun _ => rfl
  withPin := fun inherits found free =>
    have extension := withPin_extends ..
    inherits.of_face (inherits.toRegular.withPin found free) extension.pinCount extension.face
  withLiterals := fun pin value object inherits =>
    inherits.of_frame (changePin_sameFrame _ pin fun _ => rfl)
      (kept_regular.withLiterals pin value object inherits.toRegular)
  link := fun a b graph inherits =>
    inherits.of_frame (Edit.link_frame a b graph)
      (Edit.link_keeps_regular a b graph inherits.toRegular)
  unlink := fun a b graph inherits =>
    inherits.of_frame (Edit.unlink_frame a b graph)
      (Edit.unlink_keeps_regular a b graph inherits.toRegular)
  unlinkPin := fun pin graph inherits =>
    inherits.of_frame (Edit.unlinkPin_frame inherits.toSound pin)
      (Edit.unlinkPin_keeps_regular pin graph inherits.toRegular)

end Graph

namespace StructuralEdit

open RigLowering.Graph

theorem keeps_inherits (base : Graph) (call : StructuralEdit) :
    Keeps (Inherits base) call.change.edit := by
  have kept := kept_inherits base
  cases call with
  | addNode kind =>
      refine Keeps.discard fun graph inherits => ?_
      exact inherits.of_face (inherits.toRegular.pushNode kind) (Nat.le_refl _) fun _ => rfl
  | addPin node direction pinType name =>
      exact ((Edit.Composed.addPin node direction pinType name).keeps kept).discard
  | removePin pin =>
      intro graph inherits
      change Inherits base (Edit.removePin pin graph).2
      rcases Edit.removePin_cases inherits.toSound pin with ⟨_, _, failed⟩ | ⟨after, done, removed⟩
      · rw [failed]
        exact inherits
      · rw [done]
        exact inherits.removed removed ((Edit.removePin_keeps_pinCount pin).holds_after done rfl)
  | link a b => exact kept.link a b
  | unlink a b => exact kept.unlink a b
  | unlinkPin pin => exact kept.unlinkPin pin
  | unlinkNode node => exact (Edit.Composed.unlinkNode node).keeps kept
  | transferLinks origin dest => exact (Edit.Composed.transferLinks origin dest).keeps kept

/-- The calls for one pin. -/
def alone (id : PinId) : List StructuralEdit := [.removePin id, .unlinkPin id]

/-- The calls for two pins, either of which may be named first. -/
def between (id far : PinId) : List StructuralEdit :=
  [.link id far, .link far id, .unlink id far, .unlink far id,
    .transferLinks id far, .transferLinks far id]

end StructuralEdit

namespace Graph

/-- The pin is not found, whatever needs it fails for want of it, and nothing lists it. -/
structure Gone (graph : Graph) (id : PinId) : Prop where
  read : graph.pin id = .error (.pinNotFound id)
  modify : ∀ change, ((Edit.modifyPin id change).run graph).1 = .error (.pinNotFound id)
  alone : ∀ call ∈ StructuralEdit.alone id,
    (call.change.edit.run graph).1 = .error (.pinNotFound id)
  between : ∀ far pin, graph.pin? far = some pin → ∀ call ∈ StructuralEdit.between id far,
    (call.change.edit.run graph).1 = .error (.pinNotFound id)
  unlinked : ∀ far pin, graph.pin? far = some pin → id ∉ pin.links
  unlisted : ∀ node data, graph.node? node = some data → id ∉ data.pins

section Absent

variable {graph : Graph} {id far : PinId} {pin : Pin}

theorem ne_of_absent (absent : graph.pin? id = none) (live : graph.pin? far = some pin) :
    far ≠ id := by
  rintro rfl
  cases absent.symm.trans live

theorem pin_absent (absent : graph.pin? id = none) : graph.pin id = .error (.pinNotFound id) := by
  rw [Graph.pin, absent]

theorem checkJoin_absent (absent : graph.pin? id = none) (live : graph.pin? far = some pin) :
    graph.checkJoin id far = .error (.pinNotFound id) ∧
      graph.checkJoin far id = .error (.pinNotFound id) := by
  unfold checkJoin
  rw [pin_absent absent, pin_eq_ok_iff.mpr live]
  exact ⟨rfl, rfl⟩

end Absent

end Graph

namespace Edit

open RigLowering.Graph

variable {graph : Graph} {id far : PinId} {pin : Pin}

theorem modifyPin_absent (absent : graph.pin? id = none) (change : Pin → Pin) :
    modifyPin id change graph = (.error (.pinNotFound id), graph) := by
  rw [modifyPin_apply, absent]

theorem unlinkPin_absent (absent : graph.pin? id = none) :
    unlinkPin id graph = (.error (.pinNotFound id), graph) := by
  rw [unlinkPin, bind_apply, pin_apply, pin_absent absent]

theorem removePin_absent (absent : graph.pin? id = none) :
    removePin id graph = (.error (.pinNotFound id), graph) := by
  rw [removePin, bind_apply, unlinkPin_absent absent]

theorem link_absent (absent : graph.pin? id = none) (live : graph.pin? far = some pin) :
    (link id far graph).1 = .error (.pinNotFound id) ∧
      (link far id graph).1 = .error (.pinNotFound id) := by
  obtain ⟨first, second⟩ := checkJoin_absent absent live
  unfold link
  rw [bind_apply, bind_apply, query_apply, query_apply, first, second]
  exact ⟨rfl, rfl⟩

theorem unlink_absent (absent : graph.pin? id = none) (live : graph.pin? far = some pin) :
    (unlink id far graph).1 = .error (.pinNotFound id) ∧
      (unlink far id graph).1 = .error (.pinNotFound id) := by
  have different := ne_of_absent absent live
  have absentLater : (graph.changePin far (·.unlink id)).pin? id = none := by
    rw [pin?_changePin, if_neg different, absent]
  constructor
  · rw [unlink, bind_apply, modifyPin_absent absent]
  · rw [unlink, bind_apply, modifyPin_apply, live]
    exact congrArg Prod.fst (modifyPin_absent absentLater _)

theorem transferLinks_absent (absent : graph.pin? id = none) (live : graph.pin? far = some pin) :
    (transferLinks id far graph).1 = .error (.pinNotFound id) ∧
      (transferLinks far id graph).1 = .error (.pinNotFound id) := by
  have different := ne_of_absent absent live
  constructor
  · rw [transferLinks, if_neg (Ne.symm different), bind_apply, pin_apply, pin_absent absent]
  · rw [transferLinks, if_neg different, bind_apply, pin_apply, pin_eq_ok_iff.mpr live]
    simp only
    rw [bind_apply, pin_apply, pin_absent absent]

end Edit

/-- In a sound graph nothing is left of a pin whose place is empty. -/
theorem Graph.Sound.gone {graph : Graph} (sound : graph.Sound) {id : PinId}
    (absent : graph.pin? id = none) : graph.Gone id where
  read := pin_absent absent
  modify := fun change => congrArg Prod.fst (Edit.modifyPin_absent absent change)
  alone := by
    intro call member
    simp only [StructuralEdit.alone, List.mem_cons, List.not_mem_nil, or_false] at member
    rcases member with rfl | rfl
    · exact congrArg Prod.fst (Edit.removePin_absent absent)
    · exact congrArg Prod.fst (Edit.unlinkPin_absent absent)
  between := by
    intro far pin live call member
    simp only [StructuralEdit.between, List.mem_cons, List.not_mem_nil, or_false] at member
    rcases member with rfl | rfl | rfl | rfl | rfl | rfl
    · exact (Edit.link_absent absent live).1
    · exact (Edit.link_absent absent live).2
    · exact (Edit.unlink_absent absent live).1
    · exact (Edit.unlink_absent absent live).2
    · exact (Edit.transferLinks_absent absent live).1
    · exact (Edit.transferLinks_absent absent live).2
  unlinked := by
    intro far pin live member
    obtain ⟨face, found, _⟩ := sound.linked (face?_of_pin? live) (links_of_pin? live ▸ member)
    obtain ⟨_, here, _⟩ := exists_pin?_of_face? found
    cases absent.symm.trans here
  unlisted := by
    intro node data found member
    obtain ⟨face, faceFound, _⟩ := sound.listed found member
    obtain ⟨_, here, _⟩ := exists_pin?_of_face? faceFound
    cases absent.symm.trans here

namespace StructuralEdit

open RigLowering.Graph

def issued? (graph : Graph) : StructuralEdit → Option PinId
  | addPin node direction pinType name =>
      ((Edit.addPin node direction pinType name).run graph).1.toOption
  | _ => none

def removed? (graph : Graph) : StructuralEdit → Option PinId
  | removePin pin => ((Edit.removePin pin).run graph).1.toOption.map fun _ => pin
  | _ => none

/-- A call that fails leaves what it has done, and the next one goes on from there. -/
def run (calls : List StructuralEdit) (graph : Graph) : Graph :=
  calls.foldl (fun graph call => call.change.leaves graph) graph

/-- What the calls answer one after another, where they do. -/
def answers (answer? : Graph → StructuralEdit → Option PinId) :
    List StructuralEdit → Graph → List PinId
  | [], _ => []
  | call :: rest, graph =>
      (answer? graph call).toList ++ answers answer? rest (call.change.leaves graph)

variable {graph : Graph} {call : StructuralEdit} {calls : List StructuralEdit} {id : PinId}

theorem leaves_inherits (regular : graph.Regular) (call : StructuralEdit) :
    Inherits graph (call.change.leaves graph) :=
  call.keeps_inherits graph graph regular.inherits

theorem run_append (earlier later : List StructuralEdit) (graph : Graph) :
    run (earlier ++ later) graph = run later (run earlier graph) :=
  List.foldl_append

theorem run_inherits {base : Graph} (inherits : Inherits base graph)
    (calls : List StructuralEdit) : Inherits base (run calls graph) := by
  induction calls generalizing graph with
  | nil => exact inherits
  | cons call rest ih => exact ih (call.keeps_inherits base graph inherits)

/-- A new pin gets the place after all that there are. -/
theorem issued?_eq_some (issued : call.issued? graph = some id) :
    id.index = graph.pins.size ∧ (call.change.leaves graph).pins.size = graph.pins.size + 1 := by
  cases call with
  | addPin node direction pinType name =>
      change ((Edit.addPin node direction pinType name).run graph).1.toOption = some id at issued
      change _ ∧ ((discard (Edit.addPin node direction pinType name) : Edit Unit) graph).2.pins.size
        = _
      rw [discard_snd]
      rcases Edit.addPin_cases node direction pinType name graph with
        ⟨_, failed⟩ | ⟨_, _, _, added⟩
      · rw [Edit.run, failed] at issued
        cases issued
      · rw [Edit.run, added] at issued
        cases issued
        rw [added]
        exact ⟨rfl, Array.size_push ..⟩
  | _ => cases issued

theorem size_le_of_issued (regular : graph.Regular) (member : id ∈ answers issued? calls graph) :
    graph.pins.size ≤ id.index := by
  induction calls generalizing graph with
  | nil => cases member
  | cons call rest ih =>
      have inherits := leaves_inherits regular call
      rcases List.mem_append.mp member with here | later
      · exact Nat.le_of_eq (issued?_eq_some (Option.mem_toList.mp here)).1.symm
      · exact Nat.le_trans inherits.pinCount (ih inherits.toRegular later)

theorem issued_nodup (regular : graph.Regular) (calls : List StructuralEdit) :
    (answers issued? calls graph).Nodup := by
  induction calls generalizing graph with
  | nil => exact .nil
  | cons call rest ih =>
      have inherits := leaves_inherits regular call
      rw [answers]
      cases issued : call.issued? graph with
      | none => exact ih inherits.toRegular
      | some id =>
          obtain ⟨place, size⟩ := issued?_eq_some issued
          refine List.nodup_cons.mpr ⟨fun again => ?_, ih inherits.toRegular⟩
          have later := size_le_of_issued inherits.toRegular again
          rw [size, place] at later
          exact Nat.not_succ_le_self _ later

/-- The place of the pin that a call takes away is left empty. -/
theorem removed?_eq_some (regular : graph.Regular) (removed : call.removed? graph = some id) :
    id.index < (call.change.leaves graph).pins.size ∧
      (call.change.leaves graph).face? id = none := by
  cases call with
  | removePin pin =>
      change ((Edit.removePin pin).run graph).1.toOption.map (fun _ => pin) = some id at removed
      change id.index < (Edit.removePin pin graph).2.pins.size ∧
        (Edit.removePin pin graph).2.face? id = none
      rcases Edit.removePin_cases regular.toSound pin with ⟨_, _, failed⟩ | ⟨after, done, gone⟩
      · rw [Edit.run, failed] at removed
        cases removed
      · rw [Edit.run, done] at removed
        cases removed
        have size := (Edit.removePin_keeps_pinCount pin).holds_after done rfl
        rw [done]
        refine ⟨?_, (gone.face pin).trans (if_pos rfl)⟩
        cases live : graph.pin? pin with
        | none => cases done.symm.trans (Edit.removePin_absent live)
        | some data => exact size ▸ lt_size_of_face? (face?_of_pin? live)
  | _ => cases removed

theorem pin?_of_removed (regular : graph.Regular) (member : id ∈ answers removed? calls graph) :
    (run calls graph).pin? id = none := by
  induction calls generalizing graph with
  | nil => cases member
  | cons call rest ih =>
      have middle := (leaves_inherits regular call).toRegular
      rcases List.mem_append.mp member with here | later
      · obtain ⟨old, absent⟩ := removed?_eq_some regular (Option.mem_toList.mp here)
        have inherits := run_inherits middle.inherits rest
        exact Option.map_eq_none_iff.mp (inherits.face?_eq_none old absent)
      · exact ih middle later

end StructuralEdit

open StructuralEdit in
/-- Whatever calls follow one another, failing ones included, a new pin never gets an identity that
has been given before, nothing is left of a pin that has been taken away, and a pin that is there
keeps its node, name, direction and type. -/
theorem Graph.WellFormed.identities_last {graph : Graph} (wellFormed : graph.WellFormed)
    (calls : List StructuralEdit) :
    (answers issued? calls graph).Nodup ∧
    (∀ id ∈ answers issued? calls graph, graph.pins.size ≤ id.index) ∧
    (∀ id ∈ answers removed? calls graph, (run calls graph).Gone id) ∧
    ∀ earlier later, calls = earlier ++ later → ∀ id pin last,
      (run earlier graph).pin? id = some pin → (run calls graph).pin? id = some last →
        last.owner = pin.owner ∧ last.name = pin.name ∧ last.direction = pin.direction ∧
          last.pinType = pin.pinType := by
  have regular := wellFormed_iff_regular.mp wellFormed
  refine ⟨issued_nodup regular calls, fun id => size_le_of_issued regular, fun id removed => ?_, ?_⟩
  · exact (run_inherits regular.inherits calls).toSound.gone (pin?_of_removed regular removed)
  · rintro earlier later rfl id pin last found lastFound
    have middle := (run_inherits regular.inherits earlier).toRegular
    have inherits : Inherits (run earlier graph) (run (earlier ++ later) graph) := by
      rw [run_append]
      exact run_inherits middle.inherits later
    have same := inherits.face?_eq_some (face?_of_pin? found) (face?_of_pin? lastFound)
    exact ⟨congrArg PinFace.owner same, congrArg PinFace.name same,
      congrArg PinFace.direction same, congrArg PinFace.pinType same⟩

/-! A leg whose only pin is taken away, and made again twice. -/

namespace RemadeLeg

open StructuralEdit

def graph : Graph :=
  [.edit (.addNode (.primitive "leg")), .edit (.addNode (.primitive "stage")),
    .edit (.addPin ⟨0⟩ .output .float "height"), .edit (.addPin ⟨1⟩ .input .float "height"),
    .edit (.link ⟨0⟩ ⟨1⟩)].foldl GraphCommand.apply (.empty "RemadeLeg" none)

def calls : List StructuralEdit :=
  [.removePin ⟨0⟩, .addPin ⟨0⟩ .output .float "height", .link ⟨0⟩ ⟨1⟩, .link ⟨2⟩ ⟨1⟩,
    .removePin ⟨2⟩, .addPin ⟨0⟩ .output .float "height", .removePin ⟨0⟩]

/-- The link that comes too late is refused, each new pin stands behind those before it, and the pin
at the other end loses its link alone. -/
theorem remade_pins_are_new : graph.WellFormed ∧
    answers issued? calls graph = [⟨2⟩, ⟨3⟩] ∧ graph.pins.size ≤ 2 ∧
      (run calls graph).Gone ⟨0⟩ ∧ (run calls graph).Gone ⟨2⟩ ∧
      ∃ pin last, graph.pin? ⟨1⟩ = some pin ∧ (run calls graph).pin? ⟨1⟩ = some last ∧
        pin.links = [⟨0⟩] ∧ last.links = [] ∧ last.owner = pin.owner ∧ last.name = pin.name := by
  have wellFormed : graph.WellFormed := Graph.wellFormed_of_commands _ _ _
  have issued : answers issued? calls graph = [⟨2⟩, ⟨3⟩] := by decide +kernel
  have removed : answers removed? calls graph = [⟨0⟩, ⟨2⟩] := by decide +kernel
  obtain ⟨_, behind, gone, stays⟩ := wellFormed.identities_last calls
  rw [issued] at behind
  rw [removed] at gone
  obtain ⟨pin, found⟩ := Option.isSome_iff_exists.mp
    (show (graph.pin? ⟨1⟩).isSome by decide +kernel)
  obtain ⟨last, lastFound⟩ := Option.isSome_iff_exists.mp
    (show ((run calls graph).pin? ⟨1⟩).isSome by decide +kernel)
  have linked : (graph.pin? ⟨1⟩).map Pin.links = some [⟨0⟩] := by decide +kernel
  have unlinked : ((run calls graph).pin? ⟨1⟩).map Pin.links = some [] := by decide +kernel
  rw [found] at linked
  rw [lastFound] at unlinked
  obtain ⟨owner, name, _⟩ := stays [] calls rfl ⟨1⟩ pin last found lastFound
  exact ⟨wellFormed, issued, behind ⟨2⟩ (by simp), gone ⟨0⟩ (by simp), gone ⟨2⟩ (by simp),
    pin, last, found, lastFound, Option.some.inj linked, Option.some.inj unlinked, owner, name⟩

end RemadeLeg

end RigLowering
