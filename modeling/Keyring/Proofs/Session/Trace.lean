import Keyring.Proofs.Session.Move
/-!
# The states of a session

The state after any number of steps, read off the outcomes of the session. Each outcome is that of
its step in the state that the steps before it have left, so what a step preserves is preserved by
every session.
-/

namespace Keyring.Session

variable {draws : ℕ → Draw} {steps : List Step} {step : Step} {k : ℕ}

/-- The state after the first `k` steps of a session, and after all of them if there are fewer. -/
def stateAfter (draws : ℕ → Draw) (steps : List Step) (k : ℕ) : State :=
  finalState ((run draws steps).take k)

/-- The state that some outcomes leave, if they start in `s`. -/
def leftBy (s : State) (outcomes : List Outcome) : State :=
  (outcomes.getLast?.map (·.state)).getD s

/-- The state left by some outcomes does not depend on where they started, once there is one. -/
theorem leftBy_cons (s : State) (o : Outcome) (outcomes : List Outcome) :
    leftBy s (o :: outcomes) = leftBy o.state outcomes := by
  rw [leftBy, List.getLast?_cons]
  cases h : outcomes.getLast? <;> simp [leftBy, h]

/-- The last outcome leaves its state. -/
theorem leftBy_append (s : State) (outcomes : List Outcome) (o : Outcome) :
    leftBy s (outcomes ++ [o]) = o.state := by
  rw [leftBy, List.getLast?_append, List.getLast?_singleton]
  rfl

/-- There is an outcome for each step. -/
theorem length_runFrom (i : ℕ) (s : State) : (runFrom draws i s steps).length = steps.length := by
  induction steps generalizing i s with
  | nil => rfl
  | cons step rest ih => simp only [runFrom, List.length_cons, ih]

/-- The outcome with a number is that of the step with this number, in the state that the outcomes
before it leave. -/
theorem getElem?_runFrom (i : ℕ) (s : State) (k : ℕ) :
    (runFrom draws i s steps)[k]? = steps[k]?.map fun step =>
      step.run (draws (i + k)) (leftBy s ((runFrom draws i s steps).take k)) := by
  induction steps generalizing i s k with
  | nil => rfl
  | cons first rest ih =>
    cases k with
    | zero => rfl
    | succ k =>
      -- the rest of the session starts in the state that the first step leaves.
      simp only [runFrom, List.getElem?_cons_succ, List.take_succ_cons, leftBy_cons, ih,
        Nat.add_right_comm i 1 k, ← Nat.add_assoc]

/-- A session has an outcome for each step. -/
theorem length_run : (run draws steps).length = steps.length :=
  length_runFrom 0 {}

/-- The outcome of a step in a session is what the step does in the state before it. -/
theorem getElem?_run (h : steps[k]? = some step) :
    (run draws steps)[k]? = some (step.run (draws k) (stateAfter draws steps k)) := by
  have hrun : (run draws steps)[k]? = _ := getElem?_runFrom 0 {} k
  rw [h, Nat.zero_add] at hrun
  exact hrun

/-- A step takes the state before it to the state after it. -/
theorem stateAfter_succ (h : steps[k]? = some step) :
    stateAfter draws steps (k + 1) = (step.run (draws k) (stateAfter draws steps k)).state := by
  rw [stateAfter, List.take_add_one, getElem?_run h]
  exact leftBy_append {} _ _

/-- The last state is that after all steps. -/
theorem stateAfter_length :
    stateAfter draws steps steps.length = finalState (run draws steps) := by
  rw [stateAfter, List.take_of_length_le length_run.le]

/-- What holds at the start and is preserved by every step holds throughout a session. -/
theorem stateAfter_induction {Q : ℕ → State → Prop} (hzero : Q 0 {})
    (hsucc : ∀ k step, steps[k]? = some step → Q k (stateAfter draws steps k) →
      Q (k + 1) (step.run (draws k) (stateAfter draws steps k)).state) :
    ∀ k ≤ steps.length, Q k (stateAfter draws steps k) := by
  intro k
  induction k with
  | zero => exact fun _ => hzero
  | succ k ih =>
    intro hk
    have hstep : steps[k]? = some steps[k] := List.getElem?_eq_getElem hk
    rw [stateAfter_succ hstep]
    exact hsucc k _ hstep (ih (Nat.le_of_succ_le hk))

end Keyring.Session
