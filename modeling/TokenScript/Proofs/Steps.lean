import TokenScript.Proofs.Conduct
import TokenScript.Proofs.Memo.Invariant

/-!
# Steps of the machine

A run is a sequence of steps, and everything that holds at each moment of a run is an invariant of
steps.  `Takes machine status` lists all that a step can lead to: the machine is finished, a call
returns, the first frame does its deeds and is replaced by frames of the same code, a call starts,
or the run ends early.  `Reaches machine later` says that a run of the one machine comes by the
other.

* `takes_step`: every step is one of these.
* `Reaches.invariant`: what steps keep, holds at every moment of a run.
* `exists_reaches_of_run`: a run that ends does so with the last step of some machine that it
  reaches.
* `Reaches.exists_run_eq`: what a machine comes to is what the machines come to that it reaches.
-/

namespace TokenScript

variable {σ : Type} [Console σ]

namespace Machine

/-- All that a step can lead to. -/
inductive Takes : Machine σ → Status σ → Prop
  | finished (world : World σ) : Takes ⟨[], world⟩ (.halted (.done .next) world)
  | returned (rest : List Frame) (world : World σ) :
    Takes ⟨.call :: rest, world⟩ (.running ⟨rest, world.endCall⟩)
  | worked {frame : Frame} {rest : List Frame} {world final : World σ} (code : Code)
    (extra : List Frame) :
    frame.code? = some code → Deeds code world final →
      (∀ other ∈ extra, other.code? = some code) →
      Takes ⟨frame :: rest, world⟩ (.running ⟨extra ++ rest, final⟩)
  | called {code body : Code} {cursor stop next : Nat} {rest : List Frame} {world : World σ}
    {name : String} {span : Span} :
    code.call? cursor = some (name, span) → world.context.functions.get? name = some body →
      world.context.depth < world.context.callLimit →
      Takes ⟨.block code cursor stop :: rest, world⟩
        (.running ⟨.block body 0 body.size :: .call :: .block code next stop :: rest,
          (world.startCall name).hold body⟩)
  | exited {frame : Frame} {rest : List Frame} {code : Code} {world final : World σ} :
    frame.code? = some code → Deeds code world final →
      Takes ⟨frame :: rest, world⟩ (.halted (.done .exit) (final.unwind rest))
  | abandoned {frame : Frame} {rest : List Frame} {code : Code} {world last final : World σ}
    {abort : Abort} :
    frame.code? = some code → Deeds code world last → Halts code last abort final →
      Takes ⟨frame :: rest, world⟩ (.halted abort.outcome (final.unwind rest))
  | refused {code body : Code} {cursor stop : Nat} {rest : List Frame} {world : World σ}
    {name : String} {span : Span} :
    code.call? cursor = some (name, span) → world.context.functions.get? name = some body →
      world.context.callLimit ≤ world.context.depth →
      Takes ⟨.block code cursor stop :: rest, world⟩
        (.halted
          (.failed ⟨.evaluation (.callDepthExceeded world.context.callLimit name), span⟩)
          (world.unwind rest))

/-- Going on after a statement that starts no call. -/
theorem takes_follow {code : Code} {cursor stop : Nat} {rest : List Frame} {world final : World σ}
    {flow : Flow} (hplain : flow.Plain) (hdeeds : Deeds code world final) :
    Takes ⟨.block code cursor stop :: rest, world⟩ (follow code stop flow rest final) := by
  have hone : ∀ frame : Frame, frame.code? = some code →
      Takes ⟨.block code cursor stop :: rest, world⟩ (.running ⟨frame :: rest, final⟩) := by
    intro frame hframe
    refine Takes.worked code [frame] rfl hdeeds ?_
    simpa using hframe
  have htwo : ∀ (frame : Frame) (next : Nat), frame.code? = some code →
      Takes ⟨.block code cursor stop :: rest, world⟩
        (.running ⟨frame :: .block code next stop :: rest, final⟩) := by
    intro frame next hframe
    refine Takes.worked code [frame, .block code next stop] rfl hdeeds ?_
    simpa using ⟨hframe, rfl⟩
  cases flow with
  | advance next => exact hone _ rfl
  | enter extent next => exact htwo _ _ rfl
  | retest condition loop next => exact htwo _ _ rfl
  | count name first last loop next => exact htwo _ _ rfl
  | call body next => exact absurd rfl (hplain body next)
  | exit => exact Takes.exited rfl hdeeds

/-- A step inside a block is the execution of a statement. -/
theorem step_block {code : Code} {cursor stop : Nat} (h : cursor < stop ∧ cursor < code.size)
    (rest : List Frame) (world : World σ) :
    step ⟨.block code cursor stop :: rest, world⟩ =
      match (Statement.execute code cursor).run world with
      | .ok flow final => follow code stop flow rest final
      | .error abort final => .halted abort.outcome (final.unwind rest) :=
  if_pos h

/-- Every step is one of those that are listed. -/
theorem takes_step (machine : Machine σ) : Takes machine machine.step := by
  obtain ⟨frames, world⟩ := machine
  cases frames with
  | nil => exact Takes.finished world
  | cons frame rest =>
    cases frame with
    | call => exact Takes.returned rest world
    | block code cursor stop =>
      by_cases hinside : cursor < stop ∧ cursor < code.size
      · rw [step_block hinside]
        have hdoes := does_execute hinside.2 world
        revert hdoes
        cases (Statement.execute code cursor).run world with
        | ok flow final =>
          intro hdoes
          cases hdoes with
          | goesOn hplain hdeeds => exact takes_follow hplain hdeeds
          | called hcall hget hdepth => exact Takes.called hcall hget hdepth
        | error abort final =>
          intro hdoes
          cases hdoes with
          | abandoned hdeeds hhalts => exact Takes.abandoned rfl hdeeds hhalts
          | refused hcall hget hlimit => exact Takes.refused hcall hget hlimit
      · simp only [step, if_neg hinside]
        exact Takes.worked code [] rfl .refl (by simp)
    | retest code condition loop rounds =>
      have hevaluate : (Manner.deeds (world.closes = none) code).Kept world (fun _ => True)
          ((Action.evaluate code condition).run world) := deeds_evaluate condition world Iff.rfl
      simp only [step]
      revert hevaluate
      cases (Action.evaluate code condition).run world with
      | error abort final =>
        rintro ⟨last, hdeeds, hhalts⟩
        exact Takes.abandoned rfl hdeeds hhalts
      | ok value final =>
        rintro ⟨-, hdeeds, -⟩
        dsimp only
        split
        · exact Takes.worked code
            [blockFrame code loop.body, .retest code condition loop (rounds + 1)] rfl hdeeds
            (by simp [blockFrame, Frame.code?])
        · exact Takes.worked code _ rfl (hdeeds.tail (.note final _)) elseFrames_code?
    | count code name first last next loop =>
      simp only [step]
      split
      · exact Takes.worked code
          [blockFrame code loop.body, .count code name first last (next + 1) loop] rfl
          (.single (.assign world name _)) (by simp [blockFrame, Frame.code?])
      · exact Takes.worked code _ rfl (.single (.note world _)) elseFrames_code?

/-! ## Runs -/

/-- A step leads from one machine to another. -/
def Steps (machine next : Machine σ) : Prop := machine.step = .running next

/-- A run of the first machine comes by the second. -/
abbrev Reaches : Machine σ → Machine σ → Prop := Relation.ReflTransGen Steps

namespace Reaches

variable {machine later : Machine σ}

/-- What steps keep holds at every moment of a run. -/
theorem invariant {I : Machine σ → Prop} (h : Reaches machine later) (hstart : I machine)
    (hstep : ∀ now next, I now → Takes now (.running next) → I next) : I later := by
  induction h with
  | refl => exact hstart
  | @tail now next _ hlast ih =>
    have htakes := takes_step now
    rw [show now.step = .running next from hlast] at htakes
    exact hstep now next ih htakes

/-- What a machine comes to is what the machines come to that it reaches. -/
theorem exists_run_eq (h : Reaches machine later) :
    ∃ steps, ∀ fuel, run (steps + fuel) machine = run fuel later := by
  induction h using Relation.ReflTransGen.head_induction_on with
  | refl => exact ⟨0, fun fuel => by rw [Nat.zero_add]⟩
  | @head now next hfirst _ ih =>
    obtain ⟨steps, hsteps⟩ := ih
    refine ⟨steps + 1, fun fuel => ?_⟩
    rw [Nat.succ_add, run, show now.step = .running next from hfirst]
    exact hsteps fuel

end Reaches

/-- A run that ends does so with the last step of a machine that it reaches. -/
theorem exists_reaches_of_run {fuel : Nat} {machine : Machine σ} {outcome : Outcome}
    {final : World σ} (h : run fuel machine = some (outcome, final)) :
    ∃ last, Reaches machine last ∧ last.step = .halted outcome final := by
  induction fuel generalizing machine with
  | zero => cases h
  | succ fuel ih =>
    rw [run] at h
    cases hstep : machine.step with
    | running next =>
      rw [hstep] at h
      obtain ⟨last, hreaches, hlast⟩ := ih h
      exact ⟨last, hreaches.head hstep, hlast⟩
    | halted early world =>
      rw [hstep] at h
      obtain ⟨rfl, rfl⟩ := Prod.mk.inj (Option.some.inj h)
      exact ⟨machine, .refl, hstep⟩

end Machine
end TokenScript
