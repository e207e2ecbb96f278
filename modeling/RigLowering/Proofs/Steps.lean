import RigLowering.Pass.State

namespace RigLowering

/-! Edits and steps of a pass may fail, and leave a state behind whether they do or not. -/

variable {σ α β : Type}

/-- From `before` the step succeeds with `value` and leaves `after`. -/
def Yields (step : ExceptT Error (StateM σ) α) (before : σ) (value : α) (after : σ) : Prop :=
  step before = (.ok value, after)

/-- The step keeps the property, whether it succeeds or not. -/
def Keeps (property : σ → Prop) (step : ExceptT Error (StateM σ) α) : Prop :=
  ∀ state, property state → property (step state).2

/-- The step does the same where `change` has been made beforehand, and the change stays. -/
def Commutes (change : σ → σ) (step : ExceptT Error (StateM σ) α) : Prop :=
  ∀ state, step (change state) = ((step state).1, change (step state).2)

theorem bind_apply (first : ExceptT Error (StateM σ) α)
    (next : α → ExceptT Error (StateM σ) β) (state : σ) :
    (first >>= next) state =
      match first state with
      | (.ok value, state) => next value state
      | (.error error, state) => (.error error, state) := by
  simp only [bind, ExceptT.bind, ExceptT.mk, StateT.bind, ExceptT.bindCont]
  rcases first state with ⟨_ | _, _⟩ <;> rfl

/-- The handler goes on from where the step has failed. -/
theorem tryCatch_apply (step : ExceptT Error (StateM σ) α)
    (handler : Error → ExceptT Error (StateM σ) α) (state : σ) :
    tryCatch step handler state =
      match step state with
      | (.ok value, state) => (.ok value, state)
      | (.error error, state) => handler error state := by
  simp only [tryCatch, tryCatchThe, MonadExceptOf.tryCatch, ExceptT.tryCatch, ExceptT.mk, bind,
    StateT.bind]
  rcases step state with ⟨_ | _, _⟩ <;> rfl

theorem bind_eq_ok_iff {first : Except Error α} {next : α → Except Error β} {result : β} :
    (first >>= next) = .ok result ↔ ∃ value, first = .ok value ∧ next value = .ok result := by
  cases first with
  | error error => simp [bind, Except.bind]
  | ok value => simp [bind, Except.bind]

theorem bind_eq_error_iff {first : Except Error α} {next : α → Except Error β} {error : Error} :
    (first >>= next) = .error error ↔
      first = .error error ∨ ∃ value, first = .ok value ∧ next value = .error error := by
  cases first with
  | error error => simp [bind, Except.bind]
  | ok value => simp [bind, Except.bind]

theorem exists_eq_ok {answer : Except Error α} (given : answer.toOption.isSome) :
    ∃ value, answer = .ok value := by
  cases answer with
  | error error => cases given
  | ok value => exact ⟨value, rfl⟩

theorem yields_pure_iff {value result : α} {before after : σ} :
    Yields (pure value) before result after ↔ result = value ∧ after = before := by
  constructor
  · intro yielded
    cases yielded
    exact ⟨rfl, rfl⟩
  · rintro ⟨rfl, rfl⟩
    rfl

theorem not_yields_throw {error : Error} {result : α} {before after : σ} :
    ¬ Yields (throw error) before result after := by
  intro yielded
  cases yielded

theorem yields_bind_iff {first : ExceptT Error (StateM σ) α}
    {next : α → ExceptT Error (StateM σ) β} {before after : σ} {result : β} :
    Yields (first >>= next) before result after ↔
      ∃ value middle, Yields first before value middle ∧
        Yields (next value) middle result after := by
  unfold Yields
  rw [bind_apply]
  constructor
  · intro yielded
    cases equation : first before with
    | mk outcome middle =>
        rw [equation] at yielded
        cases outcome with
        | error error => cases yielded
        | ok value => exact ⟨value, middle, rfl, yielded⟩
  · rintro ⟨value, middle, firstYielded, nextYielded⟩
    rw [firstYielded]
    exact nextYielded

theorem yields_modify_iff {change : σ → σ} {result : PUnit} {before after : σ} :
    Yields (modify change) before result after ↔ after = change before := by
  constructor
  · intro yielded
    cases yielded
    rfl
  · rintro rfl
    rfl

theorem yields_discard_iff {step : ExceptT Error (StateM σ) α} {result : PUnit}
    {before after : σ} :
    Yields (discard step) before result after ↔ ∃ value, Yields step before value after := by
  have unfolded : (discard step : ExceptT Error (StateM σ) PUnit) = step >>= fun _ => pure ⟨⟩ := rfl
  rw [unfolded, yields_bind_iff]
  constructor
  · rintro ⟨value, middle, yielded, ended⟩
    exact ⟨value, (yields_pure_iff.mp ended).2 ▸ yielded⟩
  · rintro ⟨value, yielded⟩
    exact ⟨value, after, yielded, rfl⟩

theorem discard_snd (step : ExceptT Error (StateM σ) α) (state : σ) :
    ((discard step : ExceptT Error (StateM σ) PUnit) state).2 = (step state).2 := by
  change ((step >>= fun _ => pure ⟨⟩ : ExceptT Error (StateM σ) PUnit) state).2 = _
  rw [bind_apply]
  rcases step state with ⟨_ | _, _⟩ <;> rfl

theorem Keeps.holds_after {property : σ → Prop} {step : ExceptT Error (StateM σ) α}
    (keeps : Keeps property step) {before after : σ} {value : α}
    (yielded : Yields step before value after) (holds : property before) : property after := by
  have kept := keeps before holds
  rw [Yields] at yielded
  rwa [yielded] at kept

theorem keeps_pure {property : σ → Prop} (value : α) :
    Keeps property (pure value : ExceptT Error (StateM σ) α) :=
  fun _ holds => holds

theorem keeps_throw {property : σ → Prop} (error : Error) :
    Keeps property (throw error : ExceptT Error (StateM σ) α) :=
  fun _ holds => holds

theorem keeps_get {property : σ → Prop} :
    Keeps property (get : ExceptT Error (StateM σ) σ) :=
  fun _ holds => holds

theorem keeps_modify {property : σ → Prop} {change : σ → σ}
    (changeKeeps : ∀ state, property state → property (change state)) :
    Keeps property (modify change : ExceptT Error (StateM σ) PUnit) :=
  changeKeeps

theorem Keeps.bind {property : σ → Prop} {first : ExceptT Error (StateM σ) α}
    {next : α → ExceptT Error (StateM σ) β} (firstKeeps : Keeps property first)
    (nextKeeps : ∀ value, Keeps property (next value)) : Keeps property (first >>= next) := by
  intro state holds
  have kept := firstKeeps state holds
  rw [bind_apply]
  cases equation : first state with
  | mk outcome middle =>
      rw [equation] at kept
      cases outcome with
      | error error => exact kept
      | ok value => exact nextKeeps value middle kept

theorem Keeps.forM {property : σ → Prop} {step : α → ExceptT Error (StateM σ) PUnit}
    (stepKeeps : ∀ value, Keeps property (step value)) (values : List α) :
    Keeps property (values.forM step) := by
  induction values with
  | nil => exact keeps_pure _
  | cons value rest ih => exact (stepKeeps value).bind fun _ => ih

theorem Keeps.mapM {property : σ → Prop} {step : α → ExceptT Error (StateM σ) β}
    (stepKeeps : ∀ value, Keeps property (step value)) (values : List α) :
    Keeps property (values.mapM step) := by
  induction values with
  | nil => exact keeps_pure _
  | cons value rest ih =>
      rw [List.mapM_cons]
      exact (stepKeeps value).bind fun _ => ih.bind fun _ => keeps_pure _

theorem Keeps.tryCatch {property : σ → Prop} {step : ExceptT Error (StateM σ) α}
    {handler : Error → ExceptT Error (StateM σ) α} (stepKeeps : Keeps property step)
    (handlerKeeps : ∀ error, Keeps property (handler error)) :
    Keeps property (MonadExcept.tryCatch step handler) := by
  intro state holds
  have kept := stepKeeps state holds
  rw [tryCatch_apply]
  cases ran : step state with
  | mk result after =>
      rw [ran] at kept
      cases result with
      | ok value => exact kept
      | error error => exact handlerKeeps error after kept

theorem Keeps.discard {property : σ → Prop} {step : ExceptT Error (StateM σ) α}
    (stepKeeps : Keeps property step) :
    Keeps property (Functor.discard step : ExceptT Error (StateM σ) PUnit) :=
  stepKeeps.bind fun _ => keeps_pure _

theorem commutes_pure {change : σ → σ} (value : α) :
    Commutes change (pure value : ExceptT Error (StateM σ) α) :=
  fun _ => rfl

theorem Commutes.bind {change : σ → σ} {first : ExceptT Error (StateM σ) α}
    {next : α → ExceptT Error (StateM σ) β} (firstCommutes : Commutes change first)
    (nextCommutes : ∀ value, Commutes change (next value)) : Commutes change (first >>= next) := by
  intro state
  rw [bind_apply, bind_apply, firstCommutes state]
  cases first state with
  | mk outcome middle =>
      cases outcome with
      | error error => rfl
      | ok value => exact nextCommutes value middle

theorem Commutes.forM {change : σ → σ} {step : α → ExceptT Error (StateM σ) PUnit}
    (stepCommutes : ∀ value, Commutes change (step value)) (values : List α) :
    Commutes change (values.forM step) := by
  induction values with
  | nil => exact commutes_pure _
  | cons value rest ih => exact (stepCommutes value).bind fun _ => ih

end RigLowering
