import RigLowering.IndexAllocator

namespace RigLowering

namespace IndexAllocator

/-- What so many calls in a row answer, and the allocator that they leave. -/
def takes : Nat → IndexAllocator → List (Except Error UInt32) × IndexAllocator
  | 0, allocator => ([], allocator)
  | calls + 1, allocator =>
      let (answer, next) := allocator.take
      let (answers, last) := next.takes calls
      (answer :: answers, last)

/-- The index that lies so far above the base. -/
def indexAbove? (base : UInt32) (distance : Nat) : Option UInt32 :=
  if room : base.toNat + distance < UInt32.size then
    some (.ofNatLT (base.toNat + distance) room)
  else none

/-- What is answered to the call with the given number, of which the first is zero. -/
def answer (base : UInt32) (call : Nat) : Except Error UInt32 :=
  if room : base.toNat + call < UInt32.size then .ok (.ofNatLT (base.toNat + call) room)
  else .error (.indicesExhausted base (UInt32.size - base.toNat))

/-- The allocator after so many calls. -/
def called (base : UInt32) (calls : Nat) : IndexAllocator :=
  ⟨base, indexAbove? base calls, min calls (UInt32.size - base.toNat)⟩

variable {base : UInt32}

theorem startingAt_eq_called (base : UInt32) : startingAt base = called base 0 := by
  have next : indexAbove? base 0 = some base :=
    (dif_pos base.toNat_lt_size).trans (congrArg some (UInt32.ofNatLT_toNat _))
  rw [called, next, Nat.zero_min]
  rfl

theorem successor?_ofNatLT {call : Nat} (room : base.toNat + call < UInt32.size) :
    successor? (.ofNatLT (base.toNat + call) room) = indexAbove? base (call + 1) := by
  unfold successor?
  rw [UInt32.toNat_ofNatLT]
  by_cases more : base.toNat + call + 1 < UInt32.size
  · have next : UInt32.ofNatLT (base.toNat + call) room + 1 =
        .ofNatLT (base.toNat + (call + 1)) more := by
      apply UInt32.toNat_inj.mp
      rw [UInt32.toNat_add, UInt32.toNat_ofNatLT, UInt32.toNat_ofNatLT]
      exact Nat.mod_eq_of_lt more
    rw [if_pos more, next, indexAbove?, dif_pos]
  · rw [if_neg more, indexAbove?, dif_neg]
    exact more

theorem take_called (base : UInt32) (call : Nat) :
    (called base call).take = (answer base call, called base (call + 1)) := by
  by_cases room : base.toNat + call < UInt32.size
  · have next : indexAbove? base call = some (.ofNatLT (base.toNat + call) room) := dif_pos room
    have issued : min call (UInt32.size - base.toNat) + 1 =
        min (call + 1) (UInt32.size - base.toNat) := by omega
    rw [take, called, next, answer, dif_pos room]
    simp only
    rw [successor?_ofNatLT room, issued]
    rfl
  · have next : indexAbove? base call = none := dif_neg room
    have later : indexAbove? base (call + 1) = none := dif_neg (by omega)
    have issued : min call (UInt32.size - base.toNat) = UInt32.size - base.toNat := by omega
    have stays : min (call + 1) (UInt32.size - base.toNat) = UInt32.size - base.toNat := by omega
    rw [take, called, next, answer, dif_neg room, called, later, issued, stays]

theorem takes_called (base : UInt32) (first calls : Nat) :
    (called base first).takes calls =
      ((List.range calls).map fun call => answer base (first + call),
        called base (first + calls)) := by
  induction calls generalizing first with
  | zero => rfl
  | succ calls ih =>
      rw [takes, take_called]
      simp only
      rw [ih, List.range_succ_eq_map, List.map_cons, List.map_map, Nat.add_right_comm first 1 calls]
      simp only [Function.comp_def, Nat.add_right_comm first 1, Nat.succ_eq_add_one, Nat.add_assoc,
        Nat.add_zero]

theorem isOk_answer (base : UInt32) (call : Nat) :
    (answer base call).isOk = decide (base.toNat + call < UInt32.size) := by
  unfold answer
  split
  · next room => exact (decide_eq_true room).symm
  · next gone => exact (decide_eq_false gone).symm

theorem countP_isOk_answers (base : UInt32) (calls : Nat) :
    ((List.range calls).map (answer base)).countP (·.isOk) =
      min calls (UInt32.size - base.toNat) := by
  induction calls with
  | zero => rw [Nat.zero_min, List.range_zero, List.map_nil, List.countP_nil]
  | succ calls ih =>
      rw [List.range_succ, List.map_append, List.countP_append, ih, List.map_singleton,
        List.countP_singleton, isOk_answer]
      by_cases room : base.toNat + calls < UInt32.size
      · rw [decide_eq_true room, if_pos rfl]
        omega
      · rw [decide_eq_false room, if_neg Bool.false_ne_true]
        omega

theorem toOption_answer_eq_some {call : Nat} {index : UInt32}
    (given : (answer base call).toOption = some index) : index.toNat = base.toNat + call := by
  unfold answer at given
  split at given
  · cases given
    exact UInt32.toNat_ofNatLT
  · cases given

theorem take_of_error {allocator : IndexAllocator} {error : Error}
    (failed : allocator.take.1 = .error error) : allocator.take.2 = allocator := by
  unfold take at failed ⊢
  split at failed
  · rfl
  · cases failed

/-- Whatever the base and however often an index is asked for, the calls are answered by the base,
the index after it and so on up to the last one of thirty-two bits, and by failures from then on.
No index comes twice, all that were given out are counted, and a failure changes nothing. -/
theorem indices_in_order (base : UInt32) (calls : Nat) :
    ∃ answers allocator, (startingAt base).takes calls = (answers, allocator) ∧
      answers = (List.range calls).map (answer base) ∧
        (answers.filterMap (·.toOption)).Pairwise (· < ·) ∧
          allocator.issued = answers.countP (·.isOk) ∧
            ∀ error, allocator.take.1 = .error error → allocator.take.2 = allocator := by
  refine ⟨_, called base calls, ?_, rfl, ?_, (countP_isOk_answers base calls).symm, fun error =>
    take_of_error⟩
  · rw [startingAt_eq_called, takes_called]
    simp only [Nat.zero_add]
  · rw [List.pairwise_filterMap, List.pairwise_map]
    refine List.pairwise_lt_range.imp fun {first second} earlier index given other later => ?_
    rw [UInt32.lt_iff_toNat_lt, toOption_answer_eq_some given, toOption_answer_eq_some later]
    exact Nat.add_lt_add_left earlier _

/-- The last index is given out once, and nothing after it. -/
example : ((startingAt 4294967294).takes 4).1.map (·.toOption) =
    [some 4294967294, some 4294967295, none, none] := by
  rfl

end IndexAllocator

end RigLowering
