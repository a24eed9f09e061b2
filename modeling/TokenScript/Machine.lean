import TokenScript.Statement

/-!
# The machine

Statements nest: blocks in blocks, bodies in loops, and calls in calls, thousands deep.  The machine
keeps what is still to do as a list of frames, the innermost first, and takes one small step at a
time: it executes one statement, starts one round of a loop, or drops a frame that is done.  Only a
statement or the test of a condition touches the world outside the context.

A call leaves a frame behind that takes it off the count of calls when its body is done; until then
the body is in use, even if another one is stored under its name.  A script that ends early, because
it asked to or because it failed, takes all the calls that are under way off the count; so the count
is what it was before, however a run ends.

Scripts need not end, so `Machine.run` takes the number of steps that it may use and returns `none`
when they do not suffice.  More steps never change an answer.
-/

namespace TokenScript

/-- Something that is still to do. -/
inductive Frame where
  /-- Execute the statements from `cursor` up to `stop`. -/
  | block (code : Code) (cursor stop : Nat)
  /-- Test the condition again and run the loop's body while it holds. -/
  | retest (code : Code) (condition : Nat) (loop : Loop) (rounds : Nat)
  /-- Run the loop's body for the integers from `next` to `last`. -/
  | count (code : Code) (name : String) (first last next : Int) (loop : Loop)
  /-- A call ends here. -/
  | call

/-- How a run ended. -/
inductive Outcome where
  /-- Every statement was executed, or one asked for the end. -/
  | done (signal : Signal)
  | failed (e : Error)
  /-- A token beyond the end of the code was asked for. -/
  | fault
  deriving DecidableEq, Repr

/-- The outcome of an action that was abandoned. -/
def Abort.outcome : Abort → Outcome
  | .error e => .failed e
  | .fault => .fault

namespace World

variable {σ : Type}

/-- The body of a call is in use. -/
def hold (world : World σ) (body : Code) : World σ :=
  { world with held := body.address :: world.held }

/-- One call less is under way, and its body is in use no longer. -/
def endCall (world : World σ) : World σ :=
  { world with
    context := { world.context with depth := world.context.depth - 1 }
    held := world.held.tail }

/-- Notes an event. -/
def note (world : World σ) (event : Event) : World σ :=
  { world with journal := world.journal.note event }

/-- Gives a variable a value. -/
def assign (world : World σ) (name : String) (value : Value) : World σ :=
  { world with context := world.context.assign name value }

/-- Ends all calls among the frames. -/
def unwind (world : World σ) : List Frame → World σ
  | [] => world
  | .call :: rest => world.endCall.unwind rest
  | .block _ _ _ :: rest => world.unwind rest
  | .retest _ _ _ _ :: rest => world.unwind rest
  | .count _ _ _ _ _ _ :: rest => world.unwind rest

end World

/-- A script under way: what is still to do, and the world. -/
structure Machine (σ : Type) where
  frames : List Frame
  world : World σ

/-- What a step leads to. -/
inductive Status (σ : Type) where
  | running (machine : Machine σ)
  | halted (outcome : Outcome) (world : World σ)

namespace Machine

variable {σ : Type}

/-- The frame of a block of the code. -/
def blockFrame (code : Code) (extent : Extent) : Frame :=
  .block code extent.start extent.stop

/-- The frame of a loop's `else` clause, if it has one. -/
def elseFrames (code : Code) (loop : Loop) : List Frame :=
  (loop.otherwise.map (blockFrame code)).toList

/-- Goes on as a statement says, inside a block that stops at `stop`. -/
def follow (code : Code) (stop : Nat) (flow : Flow) (rest : List Frame) (world : World σ) :
    Status σ :=
  match flow with
  | .advance next => .running ⟨.block code next stop :: rest, world⟩
  | .enter extent next =>
    .running ⟨blockFrame code extent :: .block code next stop :: rest, world⟩
  | .retest condition loop next =>
    .running ⟨.retest code condition loop 0 :: .block code next stop :: rest, world⟩
  | .count name first last loop next =>
    .running
      ⟨.count code name first.toInt last.toInt first.toInt loop :: .block code next stop :: rest,
        world⟩
  | .call body next =>
    .running ⟨.block body 0 body.size :: .call :: .block code next stop :: rest, world.hold body⟩
  | .exit => .halted (.done .exit) (world.unwind rest)

/-- How many rounds a loop from `first` to `last` has: at least none, and at most as many as a word
can count. -/
def roundsBetween (first last : Int) : Int :=
  max 0 (min Word.greatest (min Word.greatest (last - first) + 1))

variable [Console σ]

/-- One step. -/
def step (machine : Machine σ) : Status σ :=
  let world := machine.world
  match machine.frames with
  | [] => .halted (.done .next) world
  | .call :: rest => .running ⟨rest, world.endCall⟩
  | .block code cursor stop :: rest =>
    if cursor < stop ∧ cursor < code.size then
      match (Statement.execute code cursor).run world with
      | .ok flow world => follow code stop flow rest world
      | .error abort world => .halted abort.outcome (world.unwind rest)
    else .running ⟨rest, world⟩
  | .retest code condition loop rounds :: rest =>
    match (Action.evaluate code condition).run world with
    | .error abort world => .halted abort.outcome (world.unwind rest)
    | .ok value world =>
      if value.isTruthy then
        .running ⟨blockFrame code loop.body :: .retest code condition loop (rounds + 1) :: rest,
          world⟩
      else
        .running ⟨elseFrames code loop ++ rest, world.note (.whileFinished loop.line rounds)⟩
  | .count code name first last next loop :: rest =>
    if next ≤ last then
      .running
        ⟨blockFrame code loop.body :: .count code name first last (next + 1) loop :: rest,
          world.assign name (.int (Int64.ofInt next))⟩
    else
      .running ⟨elseFrames code loop ++ rest,
        world.note (.forFinished loop.line (roundsBetween first last))⟩

/-- Runs to the end, in at most `fuel` steps. -/
def run : Nat → Machine σ → Option (Outcome × World σ)
  | 0, _ => none
  | fuel + 1, machine =>
    match machine.step with
    | .running next => run fuel next
    | .halted outcome world => some (outcome, world)

/-- One more step never changes an answer. -/
theorem run_succ {fuel : Nat} {machine : Machine σ} {answer : Outcome × World σ}
    (h : machine.run fuel = some answer) : machine.run (fuel + 1) = some answer := by
  induction fuel generalizing machine with
  | zero => simp [run] at h
  | succ fuel ih =>
    rw [run] at h ⊢
    split at h
    · exact ih h
    · exact h

/-- More steps never change an answer. -/
theorem run_mono {fuel more : Nat} {machine : Machine σ} {answer : Outcome × World σ}
    (hle : fuel ≤ more) (h : machine.run fuel = some answer) : machine.run more = some answer := by
  induction hle with
  | refl => exact h
  | step _ ih => exact run_succ ih

/-- A machine that is about to execute the statements of a range of the code. -/
def start (code : Code) (extent : Extent) (world : World σ) : Machine σ :=
  ⟨[blockFrame code extent], world⟩

end Machine
end TokenScript
