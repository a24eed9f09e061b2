import Mathlib.Logic.Basic
import TokenScript.Machine

/-!
# Frames below the running ones

A step looks at the first frame only, and what it does with the others is to keep them, or to end
the calls among them.  So a run of some frames on top of others is a run of the first ones alone,
and then, if these came to their end, a run of the others.  This is what makes runs compositional:
it turns the list of frames of a machine into a sequence of things that happen one after another.

* `Machine.step_append`: one step, with frames below it.
* `Machine.run_of_append`: a run of frames on top of others falls into two runs.
* `Machine.run_append_of_next`, `Machine.run_append_of_stop`: two runs make one.
-/

namespace TokenScript

variable {σ : Type}

@[simp] theorem World.unwind_append (world : World σ) (frames rest : List Frame) :
    world.unwind (frames ++ rest) = (world.unwind frames).unwind rest := by
  induction frames generalizing world with
  | nil => rfl
  | cons frame frames ih => cases frame <;> exact ih _

/-- What stays as it is when one call ends, stays so when all calls among some frames do. -/
theorem World.apply_unwind {β : Type} {f : World σ → β} (h : ∀ world, f world.endCall = f world)
    (world : World σ) (frames : List Frame) : f (world.unwind frames) = f world := by
  induction frames generalizing world with
  | nil => rfl
  | cons frame frames ih =>
    cases frame with
    | call => exact (ih world.endCall).trans (h world)
    | block | retest | count => exact ih world

/-- A status with frames below those that are running; when the machine has halted, their calls are
ended. -/
def Status.above (rest : List Frame) : Status σ → Status σ
  | .running machine => .running ⟨machine.frames ++ rest, machine.world⟩
  | .halted outcome world => .halted outcome (world.unwind rest)

namespace Machine

theorem follow_append (code : Code) (stop : Nat) (flow : Flow) (frames rest : List Frame)
    (world : World σ) :
    follow code stop flow (frames ++ rest) world =
      (follow code stop flow frames world).above rest := by
  cases flow with
  | exit => simp only [follow, Status.above, World.unwind_append]
  | _ => rfl

variable [Console σ]

/-- A step does not look at the frames below. -/
theorem step_append (frame : Frame) (frames rest : List Frame) (world : World σ) :
    step ⟨frame :: frames ++ rest, world⟩ = (step ⟨frame :: frames, world⟩).above rest := by
  cases frame with
  | call => rfl
  | block code cursor stop =>
    simp only [List.cons_append, step]
    split
    · cases (Statement.execute code cursor).run world with
      | ok flow world => exact follow_append code stop flow frames rest world
      | error abort world => simp only [Status.above, World.unwind_append]
    · rfl
  | retest code condition loop rounds =>
    simp only [List.cons_append, step]
    cases (Action.evaluate code condition).run world with
    | ok value world =>
      simp only
      split
      · rfl
      · simp only [Status.above, List.append_assoc]
    | error abort world => simp only [Status.above, World.unwind_append]
  | count code name first last next loop =>
    simp only [List.cons_append, step]
    split
    · rfl
    · simp only [Status.above, List.append_assoc]

/-- With a frame left, a machine halts early only. -/
theorem ne_next_of_step_halted {frame : Frame} {frames : List Frame} {world final : World σ}
    {outcome : Outcome} (h : step ⟨frame :: frames, world⟩ = .halted outcome final) :
    outcome ≠ .done .next := by
  have habort : ∀ abort : Abort, abort.outcome ≠ .done .next := by
    rintro (_ | _) <;> simp [Abort.outcome]
  cases frame with
  | call => simp [step] at h
  | block code cursor stop =>
    simp only [step] at h
    split at h
    · cases hexecute : (Statement.execute code cursor).run world with
      | ok flow middle =>
        rw [hexecute] at h
        cases flow with
        | exit =>
          obtain ⟨rfl, -⟩ := Status.halted.inj h
          simp
        | _ => simp [follow] at h
      | error abort middle =>
        rw [hexecute] at h
        obtain ⟨rfl, -⟩ := Status.halted.inj h
        exact habort abort
    · simp at h
  | retest code condition loop rounds =>
    simp only [step] at h
    cases hevaluate : (Action.evaluate code condition).run world with
    | ok value middle =>
      rw [hevaluate] at h
      simp only at h
      split at h <;> simp at h
    | error abort middle =>
      rw [hevaluate] at h
      obtain ⟨rfl, -⟩ := Status.halted.inj h
      exact habort abort
  | count code name first last next loop =>
    simp only [step] at h
    split at h <;> simp at h

theorem run_nil (fuel : Nat) (world : World σ) :
    run (fuel + 1) ⟨[], world⟩ = some (.done .next, world) := rfl

/-- A run of frames on top of others falls into two runs, neither of which takes more steps. -/
theorem run_of_append {fuel : Nat} {frames rest : List Frame} {world : World σ}
    {answer : Outcome × World σ} (h : run fuel ⟨frames ++ rest, world⟩ = some answer) :
    ∃ outcome middle, run fuel ⟨frames, world⟩ = some (outcome, middle) ∧
      (outcome = .done .next ∧ run fuel ⟨rest, middle⟩ = some answer ∨
        outcome ≠ .done .next ∧ answer = (outcome, middle.unwind rest)) := by
  induction fuel generalizing frames world with
  | zero => simp [run] at h
  | succ fuel ih =>
    cases frames with
    | nil => exact ⟨.done .next, world, run_nil fuel world, Or.inl ⟨rfl, h⟩⟩
    | cons frame frames =>
      rw [run, step_append] at h
      cases hstep : step ⟨frame :: frames, world⟩ with
      | running machine =>
        rw [hstep] at h
        obtain ⟨outcome, middle, hfirst, hrest⟩ := ih h
        refine ⟨outcome, middle, ?_, ?_⟩
        · rw [run, hstep]
          exact hfirst
        · exact hrest.imp (fun hnext => ⟨hnext.1, run_succ hnext.2⟩) id
      | halted outcome middle =>
        rw [hstep] at h
        have hanswer : (outcome, middle.unwind rest) = answer := Option.some.inj h
        refine ⟨outcome, middle, ?_, Or.inr ⟨?_, hanswer.symm⟩⟩
        · rw [run, hstep]
        · exact ne_next_of_step_halted hstep

/-- A run of frames that come to their end, and then a run of the frames below. -/
theorem run_append_of_next {fuel more : Nat} {frames rest : List Frame} {world middle : World σ}
    {answer : Outcome × World σ} (hfirst : run fuel ⟨frames, world⟩ = some (.done .next, middle))
    (hrest : run more ⟨rest, middle⟩ = some answer) :
    run (fuel + more) ⟨frames ++ rest, world⟩ = some answer := by
  induction fuel generalizing frames world with
  | zero => simp [run] at hfirst
  | succ fuel ih =>
    cases frames with
    | nil =>
      obtain rfl : world = middle := (Prod.mk.inj (Option.some.inj hfirst)).2
      exact run_mono (Nat.le_add_left more (fuel + 1)) hrest
    | cons frame frames =>
      rw [run] at hfirst
      rw [Nat.succ_add, run, step_append]
      cases hstep : step ⟨frame :: frames, world⟩ with
      | running machine =>
        rw [hstep] at hfirst
        exact ih hfirst
      | halted outcome final =>
        rw [hstep] at hfirst
        have houtcome : outcome = .done .next := (Prod.mk.inj (Option.some.inj hfirst)).1
        exact absurd houtcome (ne_next_of_step_halted hstep)

/-- A run of frames that ends early ends the calls below it. -/
theorem run_append_of_stop {fuel : Nat} {frames rest : List Frame} {world middle : World σ}
    {outcome : Outcome} (hfirst : run fuel ⟨frames, world⟩ = some (outcome, middle))
    (hstop : outcome ≠ .done .next) :
    run fuel ⟨frames ++ rest, world⟩ = some (outcome, middle.unwind rest) := by
  induction fuel generalizing frames world with
  | zero => simp [run] at hfirst
  | succ fuel ih =>
    cases frames with
    | nil => exact absurd (Prod.mk.inj (Option.some.inj hfirst)).1.symm hstop
    | cons frame frames =>
      rw [run] at hfirst
      rw [run, step_append]
      cases hstep : step ⟨frame :: frames, world⟩ with
      | running machine =>
        rw [hstep] at hfirst
        exact ih hfirst
      | halted early final =>
        rw [hstep] at hfirst
        obtain ⟨rfl, rfl⟩ := Prod.mk.inj (Option.some.inj hfirst)
        rfl

end Machine
end TokenScript
