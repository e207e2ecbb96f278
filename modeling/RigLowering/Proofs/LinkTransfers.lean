import RigLowering.Proofs.Feasibility

namespace RigLowering

namespace Graph

/-! Graphs that differ in no more than the links of their pins, and in what is noted for an open
checkpoint. -/

structure SameButLinks (before after : Graph) : Prop where
  others : ∃ pins undo, after = { before with pins, undo }
  pinCount : after.pins.size = before.pins.size
  pin : ∀ id, after.pin? id = (before.pin? id).map fun pin => { pin with links := after.links id }

theorem SameButLinks.refl (graph : Graph) : graph.SameButLinks graph where
  others := ⟨graph.pins, graph.undo, rfl⟩
  pinCount := rfl
  pin := by
    intro id
    cases live : graph.pin? id with
    | none => rfl
    | some pin => rw [links_of_pin? live]; rfl

theorem SameButLinks.trans {before middle after : Graph} (first : before.SameButLinks middle)
    (second : middle.SameButLinks after) : before.SameButLinks after where
  others := by
    obtain ⟨_, _, rfl⟩ := first.others
    exact second.others
  pinCount := second.pinCount.trans first.pinCount
  pin := by
    intro id
    rw [second.pin, first.pin, Option.map_map]
    rfl

theorem changePin_sameButLinks (graph : Graph) (id : PinId) {change : Pin → Pin}
    (keeps : ∀ pin, change pin = { pin with links := (change pin).links }) :
    graph.SameButLinks (graph.changePin id change) where
  others := ⟨_, _, rfl⟩
  pinCount := Array.size_modify ..
  pin := by
    intro other
    by_cases same : id = other
    · subst same
      rw [pin?_changePin, if_pos rfl]
      cases live : graph.pin? id with
      | none => rfl
      | some pin => rw [links_changePin_self change live, Option.map_some, keeps]; rfl
    · rw [pin?_changePin, if_neg same, links_changePin_of_ne graph change same]
      exact (SameButLinks.refl graph).pin other

theorem part_sameButLinks (graph : Graph) (a b : PinId) : graph.SameButLinks (graph.part a b) :=
  (graph.changePin_sameButLinks a fun _ => rfl).trans
    (changePin_sameButLinks _ b fun _ => rfl)

theorem join_sameButLinks (graph : Graph) (a b : PinId) : graph.SameButLinks (graph.join a b) :=
  (graph.changePin_sameButLinks a fun _ => rfl).trans
    (changePin_sameButLinks _ b fun _ => rfl)

/-- Of the far ends of `origin` the `moved` ones have come to be linked to `dest`, the `lost` ones
are merely not linked to `origin` any more, and the `kept` ones still are. -/
structure HandedOver (origin dest : PinId) (moved lost kept : List PinId) (before after : Graph) :
    Prop extends SameButLinks before after where
  remaining : after.links origin = kept
  collected : after.links dest = before.links dest ++ moved.filter (· ∉ before.links dest)
  relinked : ∀ far ∈ moved, after.links far =
    (before.links far).filter (· ≠ origin) ++ if dest ∈ before.links far then [] else [dest]
  released : ∀ far ∈ lost, after.links far = (before.links far).filter (· ≠ origin)
  elsewhere : ∀ id, id ≠ origin → id ≠ dest → id ∉ moved → id ∉ lost →
    after.links id = before.links id

namespace HandedOver

variable {origin dest far : PinId} {moved lost kept rest : List PinId}
  {before middle after : Graph}

theorem refl (graph : Graph) (origin dest : PinId) :
    HandedOver origin dest [] [] (graph.links origin) graph graph where
  toSameButLinks := .refl graph
  remaining := rfl
  collected := by simp
  relinked := by simp
  released := by simp
  elsewhere := fun _ _ _ _ _ => rfl

private theorem concat_filter {listed rest : List PinId} {head : PinId} (absent : head ∉ rest) :
    (listed ++ if head ∈ listed then [] else [head]) ++
        rest.filter (· ∉ listed ++ if head ∈ listed then [] else [head]) =
      listed ++ (head :: rest).filter (· ∉ listed) := by
  have others : rest.filter (· ∉ listed ++ if head ∈ listed then [] else [head]) =
      rest.filter (· ∉ listed) := by
    apply List.filter_congr
    intro far member
    have different : far ≠ head := fun same => absent (same ▸ member)
    split <;> simp [different]
  rw [others, List.filter_cons]
  split <;> simp [*]

/-- One far end more, ahead of the others. -/
theorem cons (first : HandedOver origin dest [far] [] rest before middle)
    (others : HandedOver origin dest moved lost kept middle after)
    (farApart : far ≠ origin ∧ far ≠ dest)
    (apart : ∀ other ∈ moved ++ lost, other ≠ origin ∧ other ≠ dest ∧ other ≠ far) :
    HandedOver origin dest (far :: moved) lost kept before after where
  toSameButLinks := first.toSameButLinks.trans others.toSameButLinks
  remaining := others.remaining
  collected := by
    have absent : far ∉ moved := fun member =>
      (apart far (List.mem_append_left _ member)).2.2 rfl
    have collected : middle.links dest =
        before.links dest ++ if far ∈ before.links dest then [] else [far] := by
      rw [first.collected, List.filter_singleton]
      split <;> simp_all
    rw [others.collected, collected]
    exact concat_filter absent
  relinked := by
    intro other listed
    rcases List.mem_cons.mp listed with rfl | later
    · have unmoved : other ∉ moved := fun member =>
        (apart other (List.mem_append_left _ member)).2.2 rfl
      have unlost : other ∉ lost := fun member =>
        (apart other (List.mem_append_right _ member)).2.2 rfl
      rw [others.elsewhere other farApart.1 farApart.2 unmoved unlost]
      exact first.relinked other (List.mem_singleton.mpr rfl)
    · obtain ⟨notOrigin, notDest, notFar⟩ := apart other (List.mem_append_left _ later)
      rw [others.relinked other later, first.elsewhere other notOrigin notDest
        (by simpa using notFar) List.not_mem_nil]
  released := by
    intro other listed
    obtain ⟨notOrigin, notDest, notFar⟩ := apart other (List.mem_append_right _ listed)
    rw [others.released other listed, first.elsewhere other notOrigin notDest
      (by simpa using notFar) List.not_mem_nil]
  elsewhere := by
    intro id notOrigin notDest notMoved notLost
    rw [List.mem_cons, not_or] at notMoved
    rw [others.elsewhere id notOrigin notDest notMoved.2 notLost,
      first.elsewhere id notOrigin notDest (by simpa using notMoved.1) List.not_mem_nil]

end HandedOver

variable {origin dest far : PinId} {rest : List PinId} {before middle : Graph}

private theorem Regular.apart_of_links (regular : before.Regular)
    (linked : before.links origin = far :: rest) :
    far ≠ origin ∧ ∀ other ∈ rest, other ≠ origin ∧ other ≠ far := by
  have joinable {other : PinId} (listed : other ∈ far :: rest) : before.Joinable origin other :=
    regular.joinable (linked ▸ listed)
  obtain ⟨absent, _⟩ := List.nodup_cons.mp (linked ▸ regular.linksNodup origin)
  refine ⟨(joinable List.mem_cons_self).ne.symm, fun other listed => ?_⟩
  exact ⟨(joinable (List.mem_cons_of_mem _ listed)).ne.symm, fun same => absent (same ▸ listed)⟩

/-- Unlinking the first far end lets go of that end alone. -/
theorem Regular.part_handedOver (regular : before.Regular) (different : origin ≠ dest)
    (linked : before.links origin = far :: rest) (farApart : far ≠ dest) :
    HandedOver origin dest [] [far] rest before (before.part origin far) where
  toSameButLinks := before.part_sameButLinks origin far
  remaining := by
    obtain ⟨notOrigin, apart⟩ := regular.apart_of_links linked
    rw [links_part, linked, List.filter_cons_of_neg (by simp), List.filter_eq_self]
    intro other listed
    simp [(apart other listed).2, notOrigin.symm]
  collected := by
    rw [links_part, List.filter_nil, List.append_nil, List.filter_eq_self]
    simp [different.symm, farApart.symm]
  relinked := by simp
  released := by
    obtain ⟨notOrigin, _⟩ := regular.apart_of_links linked
    intro other listed
    obtain rfl := List.mem_singleton.mp listed
    rw [links_part]
    apply List.filter_congr
    simp [notOrigin]
  elsewhere := by
    intro id notOrigin _ _ notFar
    rw [links_part, List.filter_eq_self]
    simp [notOrigin, List.mem_singleton.not.mp notFar]

/-- A far end that has been let go is moved by linking it to `dest`, or is already linked there. -/
theorem HandedOver.join (parted : HandedOver origin dest [] [far] rest before middle)
    (sound : before.Sound) (joinable : middle.Joinable dest far)
    (apart : origin ≠ dest ∧ origin ≠ far) :
    (far ∈ middle.links dest → HandedOver origin dest [far] [] rest before middle) ∧
      (far ∉ middle.links dest →
        HandedOver origin dest [far] [] rest before (middle.join dest far)) := by
  have collected : middle.links dest = before.links dest := by
    rw [parted.collected, List.filter_nil, List.append_nil]
  have released := parted.released far (List.mem_singleton.mpr rfl)
  rw [collected]
  constructor
  · intro member
    have back : dest ∈ before.links far := sound.mem_links_comm.mp member
    refine ⟨parted.toSameButLinks, parted.remaining, ?_, ?_, by simp, ?_⟩
    · rw [collected, List.filter_cons_of_neg (by simp [member]), List.filter_nil, List.append_nil]
    · intro other listed
      obtain rfl := List.mem_singleton.mp listed
      rw [released, if_pos back, List.append_nil]
    · exact fun id notOrigin notDest notFar _ =>
        parted.elsewhere id notOrigin notDest List.not_mem_nil notFar
  · intro fresh
    have back : dest ∉ before.links far := mt sound.mem_links_comm.mpr fresh
    have links := links_join joinable
    refine ⟨parted.trans (middle.join_sameButLinks dest far), ?_, ?_, ?_, by simp, ?_⟩
    · rw [links, if_neg apart.1, if_neg apart.2, parted.remaining]
    · rw [links, if_pos rfl, collected, List.filter_cons_of_pos (by simp [fresh]),
        List.filter_nil]
    · intro other listed
      obtain rfl := List.mem_singleton.mp listed
      rw [links, if_neg joinable.ne.symm, if_pos rfl, released, if_neg back]
    · intro id notOrigin notDest notFar _
      rw [links, if_neg notDest, if_neg (List.mem_singleton.not.mp notFar)]
      exact parted.elsewhere id notOrigin notDest List.not_mem_nil notFar

end Graph

namespace Edit

open RigLowering.Graph

variable {origin dest far : PinId} {rest : List PinId} {before : Graph}

/-- What has come of moving one link: it is at its new end, or it is gone and linking there was
refused. -/
private theorem unlink_then_link (regular : before.Regular) (different : origin ≠ dest)
    (linked : before.links origin = far :: rest) (farApart : far ≠ dest) :
    ∃ after, after.Regular ∧
      ((unlink origin far >>= fun _ => link dest far) before = (.ok (), after) ∧
          HandedOver origin dest [far] [] rest before after ∨
        ∃ error, (unlink origin far >>= fun _ => link dest far) before = (.error error, after) ∧
          HandedOver origin dest [] [far] rest before after ∧
            link dest far after = (.error error, after)) := by
  have joinable : before.Joinable origin far :=
    regular.joinable (linked ▸ List.mem_cons_self)
  have ⟨face, farFace, found, farFound, _⟩ := joinable
  have unlinked : unlink origin far before = (.ok (), before.part origin far) :=
    yields_unlink_of_live found farFound
  have parted := regular.part_handedOver different linked farApart
  have partRegular := regular.part origin far
  rw [bind_apply, unlinked]
  rcases link_cases dest far (before.part origin far) with
    ⟨error, refused⟩ | ⟨destJoinable, ⟨member, same⟩ | ⟨fresh, joined⟩⟩
  · exact ⟨_, partRegular, .inr ⟨error, refused, parted, refused⟩⟩
  · have moved := parted.join regular.toSound destJoinable ⟨different, joinable.ne⟩
    exact ⟨_, partRegular, .inl ⟨same, moved.1 member⟩⟩
  · have moved := parted.join regular.toSound destJoinable ⟨different, joinable.ne⟩
    exact ⟨_, partRegular.join destJoinable fresh, .inl ⟨joined, moved.2 fresh⟩⟩

/-- The links are moved one by one, in their order, up to the first that is refused. -/
private theorem forM_handedOver {fars : List PinId} (regular : before.Regular)
    (different : origin ≠ dest) (linked : before.links origin = fars) (apart : dest ∉ fars) :
    ∃ after, after.Regular ∧
      ((fars.forM fun far => do unlink origin far; link dest far) before = (.ok (), after) ∧
          HandedOver origin dest fars [] [] before after ∨
        ∃ error moved far rest,
          (fars.forM fun far => do unlink origin far; link dest far) before =
              (.error error, after) ∧
            fars = moved ++ far :: rest ∧
            HandedOver origin dest moved [far] rest before after ∧
              link dest far after = (.error error, after)) := by
  -- The far ends that are still to come are at each point just the links of `origin`.
  induction fars generalizing before with
  | nil => exact ⟨before, regular, .inl ⟨rfl, linked ▸ .refl before origin dest⟩⟩
  | cons far rest ih =>
      obtain ⟨farApart, restApart⟩ := not_or.mp (mt List.mem_cons.mpr apart)
      obtain ⟨farOrigin, restOrigin⟩ := regular.apart_of_links linked
      have others : ∀ other ∈ rest, other ≠ origin ∧ other ≠ dest ∧ other ≠ far := by
        intro other listed
        obtain ⟨notOrigin, notFar⟩ := restOrigin other listed
        exact ⟨notOrigin, fun same => restApart (same ▸ listed), notFar⟩
      have unrolled : ((far :: rest).forM fun far => do unlink origin far; link dest far) before =
          ((unlink origin far >>= fun _ => link dest far) >>= fun _ =>
            rest.forM fun far => do unlink origin far; link dest far) before := rfl
      rw [unrolled, bind_apply]
      obtain ⟨middle, middleRegular, ⟨done, handed⟩ | ⟨error, failed, handed, refused⟩⟩ :=
        unlink_then_link regular different linked (Ne.symm farApart)
      · rw [done]
        obtain ⟨after, afterRegular, ⟨restDone, restHanded⟩ |
          ⟨error, moved, last, kept, restFailed, rfl, restHanded, refused⟩⟩ :=
            ih middleRegular handed.remaining restApart
        · refine ⟨after, afterRegular, .inl ⟨restDone, ?_⟩⟩
          refine handed.cons restHanded ⟨farOrigin, Ne.symm farApart⟩ ?_
          rwa [List.append_nil]
        · refine ⟨after, afterRegular,
            .inr ⟨error, far :: moved, last, kept, restFailed, rfl, ?_, refused⟩⟩
          refine handed.cons restHanded ⟨farOrigin, Ne.symm farApart⟩ fun other listed => ?_
          apply others
          rcases List.mem_append.mp listed with early | late
          · exact List.mem_append_left _ early
          · rw [List.mem_singleton.mp late]
            exact List.mem_append_right _ List.mem_cons_self
      · rw [failed]
        exact ⟨middle, middleRegular, .inr ⟨error, [], far, rest, rfl, rfl, handed, refused⟩⟩

/-- Between live pins of one direction, links are moved up to the first that is refused. -/
theorem transferLinks_cases {source target : Pin} (regular : before.Regular)
    (different : origin ≠ dest) (live : before.pin? origin = some source)
    (destLive : before.pin? dest = some target) (direction : source.direction = target.direction) :
    ∃ after, after.Regular ∧
      (transferLinks origin dest before = (.ok (), after) ∧
          HandedOver origin dest source.links [] [] before after ∨
        ∃ error moved far rest, transferLinks origin dest before = (.error error, after) ∧
          source.links = moved ++ far :: rest ∧
            HandedOver origin dest moved [far] rest before after ∧
              link dest far after = (.error error, after)) := by
  have linked := links_of_pin? live
  have apart : dest ∉ source.links := by
    intro member
    obtain ⟨face, destFace, found, destFound, directions, _⟩ :=
      regular.joinable (linked ▸ member : dest ∈ before.links origin)
    cases found.symm.trans (face?_of_pin? live)
    cases destFound.symm.trans (face?_of_pin? destLive)
    exact directions direction.symm
  have unfolded : transferLinks origin dest before =
      (source.links.forM fun far => do unlink origin far; link dest far) before := by
    unfold transferLinks
    rw [if_neg different, bind_apply, pin_apply, Graph.pin, live]
    simp only
    rw [bind_apply, pin_apply, Graph.pin, destLive]
    simp only
    rw [if_pos direction]
  rw [unfolded]
  exact forM_handedOver regular different linked apart

end Edit

/-- Links that are moved come to the end of the list of their new pin, in their order and none of
them twice.  If one is refused there, those before it have been moved, it has been let go, and those
after it have stayed; the error is that of linking it to the new pin. -/
theorem Graph.WellFormed.transferLinks_hands_over {graph : Graph} {origin dest : PinId}
    {source target : Pin} (wellFormed : graph.WellFormed) (different : origin ≠ dest)
    (live : graph.pin? origin = some source) (destLive : graph.pin? dest = some target)
    (direction : source.direction = target.direction) :
    ∃ result after, (Edit.transferLinks origin dest).run graph = (result, after) ∧
      after.WellFormed ∧
      match result with
      | .ok () => Graph.HandedOver origin dest source.links [] [] graph after
      | .error error => ∃ moved far rest, source.links = moved ++ far :: rest ∧
          Graph.HandedOver origin dest moved [far] rest graph after ∧
            (Edit.link dest far).run after = (.error error, after) := by
  have regular := Graph.wellFormed_iff_regular.mp wellFormed
  obtain ⟨after, afterRegular, ⟨done, handed⟩ | ⟨error, moved, far, rest, failed, outcome⟩⟩ :=
    Edit.transferLinks_cases regular different live destLive direction
  · exact ⟨_, after, done, Graph.wellFormed_iff_regular.mpr afterRegular, handed⟩
  · exact ⟨_, after, failed, Graph.wellFormed_iff_regular.mpr afterRegular, moved, far, rest,
      outcome⟩

/-! A knob whose output may go anywhere, and a dial that gives numbers only. -/

namespace PatchedStage

open RigLowering.Graph

def knob : Pin := ⟨⟨0⟩, ⟨0⟩, "value", .output, .wildcard, none, none, [⟨2⟩, ⟨3⟩, ⟨4⟩]⟩

def dial : Pin := ⟨⟨1⟩, ⟨1⟩, "value", .output, .float, none, none, [⟨2⟩]⟩

def graph : Graph where
  name := "PatchedStage"
  parentClass := none
  nodes := #[
    ⟨⟨0⟩, .primitive "knob", [⟨0⟩], none⟩,
    ⟨⟨1⟩, .primitive "dial", [⟨1⟩], none⟩,
    ⟨⟨2⟩, .primitive "stage", [⟨2⟩, ⟨3⟩, ⟨4⟩], none⟩]
  pins := #[some knob, some dial,
    some ⟨⟨2⟩, ⟨2⟩, "height", .input, .float, none, none, [⟨1⟩, ⟨0⟩]⟩,
    some ⟨⟨3⟩, ⟨2⟩, "label", .input, .string, none, none, [⟨0⟩]⟩,
    some ⟨⟨4⟩, ⟨2⟩, "stride", .input, .float, none, none, [⟨0⟩]⟩]
  hierarchy := .empty
  undo := none

theorem isWellFormed : graph.WellFormed where
  audited := rfl
  pinsOnce := by decide
  linksOnce := by decide
  namesOnce := by decide

/-- The knob takes the link of the dial over.  The other way round the label is refused, after the
height has come to the dial, which was linked to it already, and before the stride. -/
theorem hands_over_up_to_label : graph.WellFormed ∧
    (∃ after, (Edit.transferLinks ⟨1⟩ ⟨0⟩).run graph = (.ok (), after) ∧
      HandedOver ⟨1⟩ ⟨0⟩ [⟨2⟩] [] [] graph after) ∧
    ∃ error after, (Edit.transferLinks ⟨0⟩ ⟨1⟩).run graph = (.error error, after) ∧
      HandedOver ⟨0⟩ ⟨1⟩ [⟨2⟩] [⟨3⟩] [⟨4⟩] graph after ∧
        (Edit.link ⟨1⟩ ⟨3⟩).run after = (.error error, after) := by
  have knobLive : graph.pin? ⟨0⟩ = some knob := rfl
  have dialLive : graph.pin? ⟨1⟩ = some dial := rfl
  refine ⟨isWellFormed, ?_, ?_⟩
  · obtain ⟨result, after, ran, _, outcome⟩ :=
      isWellFormed.transferLinks_hands_over (by decide) dialLive knobLive rfl
    obtain rfl : Except.ok () = result := congrArg Prod.fst ran
    exact ⟨after, ran, outcome⟩
  · obtain ⟨result, after, ran, _, outcome⟩ :=
      isWellFormed.transferLinks_hands_over (by decide) knobLive dialLive rfl
    cases result with
    | ok _ => exact nomatch (congrArg Prod.fst ran : Except.error _ = Except.ok _)
    | error error =>
        obtain ⟨moved, far, rest, listed, handed, refused⟩ := outcome
        obtain rfl : [⟨4⟩] = rest :=
          (congrArg (fun outcome => outcome.2.links ⟨0⟩) ran).trans handed.remaining
        have split : [⟨2⟩] ++ [⟨3⟩, ⟨4⟩] = moved ++ [far, ⟨4⟩] := listed
        obtain ⟨rfl, last⟩ := List.append_inj' split rfl
        cases last
        exact ⟨error, after, ran, handed, refused⟩

end PatchedStage

end RigLowering
