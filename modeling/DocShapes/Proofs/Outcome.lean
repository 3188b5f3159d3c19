import DocShapes.Catalog.Basic

/-! # How a step ends

A step on a state, be it a catalog or a single definition, succeeds or fails, and either way it
leaves a state behind. `Ends` says of a step that one condition holds if it succeeds and another
if it fails. The rules below take a step apart along its sequence, so that what is known of its
parts gives what is known of the whole.
-/

namespace DocShapes

variable {σ α β : Type}

/-- From a state, a step succeeds with a result and a state of which `done` holds, or fails with a
state of which `failed` holds. -/
def Ends
    (step : EStateM Error σ α) (state : σ)
    (done : α → σ → Prop) (failed : σ → Prop) : Prop :=
  match step state with
  | .ok found after => done found after
  | .error _ after => failed after

/-- The state that a step leaves, whether it succeeds or fails. -/
def leaves (step : EStateM Error σ α) (state : σ) : σ :=
  match step state with
  | .ok _ after => after
  | .error _ after => after

/-- The step succeeds. -/
def succeeds (step : EStateM Error σ α) (state : σ) : Bool :=
  match step state with
  | .ok .. => true
  | .error .. => false

theorem eq_ok_of_succeeds {step : EStateM Error σ α} {state : σ}
    (done : succeeds step state = true) : ∃ found, step state = .ok found (leaves step state) := by
  unfold succeeds at done
  unfold leaves
  cases result : step state with
  | ok found after => exact ⟨found, rfl⟩
  | error => simp [result] at done

/-- The step succeeds with a result that passes a test. -/
def succeedsWith (test : α → Bool) (step : EStateM Error σ α) (state : σ) : Bool :=
  match step state with
  | .ok found _ => test found
  | .error .. => false

theorem eq_ok_of_succeedsWith {test : α → Bool} {step : EStateM Error σ α} {state : σ}
    (passes : succeedsWith test step state = true) :
    ∃ found, step state = .ok found (leaves step state) ∧ test found = true := by
  unfold succeedsWith at passes
  unfold leaves
  cases result : step state with
  | ok found after => exact ⟨found, rfl, by simpa [result] using passes⟩
  | error => simp [result] at passes

section

variable {state : σ} {done : α → σ → Prop} {failed : σ → Prop}

theorem Ends.mono
    {step : EStateM Error σ α} {done' : α → σ → Prop} {failed' : σ → Prop}
    (ends : Ends step state done failed)
    (onDone : ∀ found after, done found after → done' found after)
    (onFailed : ∀ after, failed after → failed' after) :
    Ends step state done' failed' := by
  unfold Ends at *
  split at ends
  · exact onDone _ _ ends
  · exact onFailed _ ends

theorem Ends.imp
    {step : EStateM Error σ α} {done' : α → σ → Prop}
    (ends : Ends step state done failed)
    (onDone : ∀ found after, done found after → done' found after) :
    Ends step state done' failed :=
  ends.mono onDone fun _ ended => ended

theorem Ends.and
    {step : EStateM Error σ α} {done' : α → σ → Prop} {failed' : σ → Prop}
    (ends : Ends step state done failed) (further : Ends step state done' failed') :
    Ends step state (fun found after => done found after ∧ done' found after)
      fun after => failed after ∧ failed' after := by
  unfold Ends at *
  cases result : step state with
  | ok => simpa [result] using And.intro ends further
  | error => simpa [result] using And.intro ends further

theorem Ends.of_ok
    {step : EStateM Error σ α} {found : α} {after : σ}
    (ends : Ends step state done failed)
    (succeeds : step state = .ok found after) : done found after := by
  simpa [Ends, succeeds] using ends

theorem Ends.of_error
    {step : EStateM Error σ α} {error : Error} {after : σ}
    (ends : Ends step state done failed)
    (fails : step state = .error error after) : failed after := by
  simpa [Ends, fails] using ends

theorem get_bind (next : σ → EStateM Error σ α) : (get >>= next) state = next state state := rfl

/-- A step that succeeds gives way to the next one. -/
theorem bind_of_ok
    {step : EStateM Error σ α} {next : α → EStateM Error σ β} {found : α} {after : σ}
    (succeeds : step state = .ok found after) : (step >>= next) state = next found after := by
  simp only [bind, EStateM.bind, succeeds]

theorem of_bind_eq_ok
    {step : EStateM Error σ α} {next : α → EStateM Error σ β} {result : β} {after : σ}
    (succeeds : (step >>= next) state = .ok result after) :
    ∃ found middle, step state = .ok found middle ∧ next found middle = .ok result after := by
  cases first : step state with
  | ok found middle => exact ⟨found, middle, rfl, by rwa [bind_of_ok first] at succeeds⟩
  | error => simp [bind, EStateM.bind, first] at succeeds

/-- Two steps in turn fail in the first one or in the second one. -/
theorem of_bind_eq_error
    {step : EStateM Error σ α} {next : α → EStateM Error σ β} {error : Error} {after : σ}
    (fails : (step >>= next) state = .error error after) :
    step state = .error error after ∨
      ∃ found middle, step state = .ok found middle ∧ next found middle = .error error after := by
  cases first : step state with
  | ok found middle => exact .inr ⟨found, middle, rfl, by rwa [bind_of_ok first] at fails⟩
  | error => exact .inl (by simpa [bind, EStateM.bind, first] using fails)

/-- Steps that do the same end the same way, wherever they start. -/
theorem Ends.of_eq {step other : EStateM Error σ α} {start : σ} (same : step state = other start)
    (ends : Ends other start done failed) : Ends step state done failed := by
  unfold Ends at *
  rwa [same]

theorem ends_of_ok {step : EStateM Error σ α} {found : α} {after : σ}
    (succeeds : step state = .ok found after) (here : done found after) :
    Ends step state done failed := by
  unfold Ends
  rwa [succeeds]

/-- A step that cannot fail succeeds. -/
theorem Ends.exists_ok
    {step : EStateM Error σ α} (ends : Ends step state done fun _ => False) :
    ∃ found after, step state = .ok found after ∧ done found after := by
  unfold Ends at ends
  split at ends
  · exact ⟨_, _, ‹_›, ends⟩
  · exact ends.elim

/-- A step ends the way it does. -/
theorem ends_self (step : EStateM Error σ α) (state : σ) :
    Ends step state (fun found after => step state = .ok found after)
      fun after => ∃ error, step state = .error error after := by
  unfold Ends
  cases step state with
  | ok => rfl
  | error error => exact ⟨error, rfl⟩

theorem ends_leaves_iff {step : EStateM Error σ α} {holds : σ → Prop} :
    Ends step state (fun _ => holds) holds ↔ holds (leaves step state) := by
  unfold Ends leaves
  cases step state <;> rfl

/-! ## Rules -/

@[simp] theorem ends_pure (found : α) :
    Ends (pure found) state done failed ↔ done found state := Iff.rfl

@[simp] theorem ends_throw (error : Error) :
    Ends (throw error : EStateM Error σ α) state done failed ↔ failed state := Iff.rfl

@[simp] theorem ends_get {done : σ → σ → Prop} :
    Ends (get : EStateM Error σ σ) state done failed ↔ done state state := Iff.rfl

@[simp] theorem ends_set (next : σ) {done : PUnit → σ → Prop} :
    Ends (set next : EStateM Error σ PUnit) state done failed ↔ done ⟨⟩ next := Iff.rfl

@[simp] theorem ends_modify (change : σ → σ) {done : PUnit → σ → Prop} :
    Ends (modify change : EStateM Error σ PUnit) state done failed ↔ done ⟨⟩ (change state) :=
  Iff.rfl

@[simp] theorem ends_bind
    (step : EStateM Error σ α) (next : α → EStateM Error σ β) {done : β → σ → Prop} :
    Ends (step >>= next) state done failed ↔
      Ends step state (fun found after => Ends (next found) after done failed) failed := by
  simp only [Ends, bind, EStateM.bind]
  cases step state <;> rfl

@[simp] theorem ends_map
    (step : EStateM Error σ α) (view : α → β) {done : β → σ → Prop} :
    Ends (view <$> step) state done failed ↔
      Ends step state (fun found => done (view found)) failed := by
  simp only [Ends, Functor.map, EStateM.map]
  cases step state <;> rfl

theorem ends_ite
    {condition : Prop} [Decidable condition] {step other : EStateM Error σ α}
    (ifTrue : condition → Ends step state done failed)
    (ifFalse : ¬condition → Ends other state done failed) :
    Ends (if condition then step else other) state done failed := by
  split
  · exact ifTrue ‹_›
  · exact ifFalse ‹_›

end

/-- What each step over a list preserves, the steps over the whole list preserve. -/
theorem ends_forM
    (holds failed : σ → Prop) (step : α → EStateM Error σ PUnit) (items : List α)
    (each : ∀ item ∈ items, ∀ state, holds state →
      Ends (step item) state (fun _ => holds) failed)
    (state : σ) (start : holds state) :
    Ends (items.forM step) state (fun _ => holds) failed := by
  induction items generalizing state with
  | nil => exact start
  | cons item rest ih =>
    rw [List.forM, ends_bind]
    refine (each item List.mem_cons_self state start).imp fun _ after kept => ?_
    exact ih (fun other member => each other (List.mem_cons_of_mem _ member)) after kept

@[simp] theorem ends_ofExcept
    (result : Except Error α) {catalog : Catalog}
    {done : α → Catalog → Prop} {failed : Catalog → Prop} :
    Ends (Catalog.ofExcept result) catalog done failed ↔
      match result with
      | .ok found => done found catalog
      | .error _ => failed catalog := by
  cases result <;> rfl

end DocShapes
