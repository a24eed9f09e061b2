import TokenScript.Proofs.Escapes
import TokenScript.Proofs.Frames
import TokenScript.Proofs.Progress

/-!
# Scripts without `while` come to an end

What could keep a script going without `while`?  A statement goes on behind itself, so a block ends
unless one of its statements does not; a `for` counts from one bound to the other; and a call is one
of a number that is limited.  So the proof follows three inductions, one inside the other: on the
number of calls that may still start, on what is left of the code, and on what is left to count.
The code may change under way, since functions can be stored; but no body that is cut out of code
without `while` has one.

`Settles I frames world` says that the frames come to an end from the world on, and, if that is not
an early one, leave a world with `I`.  Runs of frames on top of others fall into two runs, so it is
enough to settle each frame on its own.

* `Whileless`, `World.Steady`: code and worlds without `while`.
* `Machine.Settles`: frames that come to an end.
* `Machine.settles_count`, `Machine.settles_block`: loops and blocks.
* `runRange_terminates`: every run of a range comes to an end.
-/

namespace TokenScript

variable {σ : Type}

/-! ## Worlds without `while` -/

/-- No token is `while`. -/
def Whileless (tokens : Array Token) : Prop := ∀ t ∈ tokens, t.isKeyword .whileLoop = false

instance (tokens : Array Token) : Decidable (Whileless tokens) :=
  inferInstanceAs (Decidable (∀ t ∈ tokens, _))

theorem Whileless.extract {tokens : Array Token} (h : Whileless tokens) (start stop : Nat) :
    Whileless (tokens.extract start stop) := by
  intro t ht
  obtain ⟨index, hindex, rfl⟩ := Array.mem_iff_getElem.1 ht
  rw [Array.getElem_extract]
  exact h _ (Array.getElem_mem _)

/-- No stored body has a `while`. -/
def FunctionTable.Whileless (table : FunctionTable) : Prop :=
  ∀ name body, table.get? name = some body → TokenScript.Whileless body.tokens

/-- A world that scans for every close, in which so many calls are under way out of so many, and in
which no body has a `while`. -/
structure World.Steady (limit depth : Nat) (world : World σ) : Prop where
  scans : world.closes = none
  callLimit : world.context.callLimit = limit
  depth : world.context.depth = depth
  bodies : world.context.functions.Whileless

namespace World.Steady

variable {limit depth : Nat} {world final : World σ} {code : Code}

theorem deeds [Console σ] (h : Steady limit depth world) (hcode : Whileless code.tokens)
    (hdeeds : Deeds code world final) : Steady limit depth final where
  scans := hdeeds.scans h.scans
  callLimit := hdeeds.callLimit.trans h.callLimit
  depth := hdeeds.depth.trans h.depth
  bodies := by
    induction hdeeds with
    | refl => exact h.bodies
    | tail _ hlast ih =>
      cases hlast with
      | define name start stop =>
        intro other body hget
        rcases FunctionTable.stored_cases hget with ⟨-, rfl⟩ | ⟨-, hold⟩
        · exact hcode.extract start stop
        · exact ih other body hold
      | note | assign | remember | read | write => exact ih

/-- A call starts, and its body is in use. -/
theorem startCall (h : Steady limit depth world) (name : String) (body : Code) :
    Steady limit (depth + 1) ((world.startCall name).hold body) :=
  ⟨h.scans, h.callLimit, congrArg (· + 1) h.depth, h.bodies⟩

theorem endCall (h : Steady limit (depth + 1) world) : Steady limit depth world.endCall where
  scans := h.scans
  callLimit := h.callLimit
  depth := by
    show world.context.depth - 1 = depth
    rw [h.depth, Nat.add_sub_cancel]
  bodies := h.bodies

end World.Steady

namespace Machine

/-! ## Frames that come to an end -/

variable [Console σ]

/-- From the world on the frames come to an end; if it is not an early one, it leaves a world with
`I`. -/
def Settles (I : World σ → Prop) (frames : List Frame) (world : World σ) : Prop :=
  ∃ fuel outcome final, run fuel ⟨frames, world⟩ = some (outcome, final) ∧
    (outcome = .done .next → I final)

section

variable {I J : World σ → Prop} {frames rest : List Frame} {world : World σ}

theorem settles_nil (h : I world) : Settles I [] world := ⟨1, _, world, rfl, fun _ => h⟩

theorem Settles.of_running {next : Machine σ} (hstep : step ⟨frames, world⟩ = .running next)
    (h : Settles I next.frames next.world) : Settles I frames world := by
  obtain ⟨fuel, outcome, final, hrun, hfinal⟩ := h
  refine ⟨fuel + 1, outcome, final, ?_, hfinal⟩
  rw [run, hstep]
  exact hrun

theorem settles_of_halted {outcome : Outcome} {final : World σ}
    (hstep : step ⟨frames, world⟩ = .halted outcome final) (h : outcome ≠ .done .next) :
    Settles I frames world := by
  refine ⟨1, outcome, final, ?_, fun heq => absurd heq h⟩
  rw [run, hstep]

/-- Frames on top of others. -/
theorem Settles.append (h : Settles J frames world)
    (hrest : ∀ middle, J middle → Settles I rest middle) :
    Settles I (frames ++ rest) world := by
  obtain ⟨fuel, outcome, middle, hrun, hmiddle⟩ := h
  by_cases hnext : outcome = .done .next
  · subst hnext
    obtain ⟨more, outcome, final, hmore, hfinal⟩ := hrest middle (hmiddle rfl)
    exact ⟨fuel + more, outcome, final, run_append_of_next hrun hmore, hfinal⟩
  · exact ⟨fuel, outcome, _, run_append_of_stop hrun hnext, fun heq => absurd heq hnext⟩

/-- One frame on top of others. -/
theorem Settles.cons {frame : Frame} (h : Settles J [frame] world)
    (hrest : ∀ middle, J middle → Settles I rest middle) : Settles I (frame :: rest) world :=
  Settles.append h hrest

end

/-! ## Loops -/

/-- The `else` clause of a loop, if it has one. -/
theorem settles_elseFrames {I : World σ → Prop} {code : Code} {loop : Loop}
    (h : ∀ extent, loop.otherwise = some extent → ∀ world, I world →
      Settles I [blockFrame code extent] world)
    {world : World σ} (hworld : I world) : Settles I (elseFrames code loop) world := by
  unfold elseFrames
  cases hotherwise : loop.otherwise with
  | none => exact settles_nil hworld
  | some extent => exact h extent hotherwise world hworld

/-- A loop that counts comes to an end if its blocks do, by induction on what is left to count. -/
theorem settles_count {I : World σ → Prop} {code : Code} {loop : Loop} (name : String)
    (first last : Int) (hnote : ∀ world event, I world → I (world.note event))
    (hassign : ∀ world value, I world → I (world.assign name value))
    (hbody : ∀ world, I world → Settles I [blockFrame code loop.body] world)
    (helse : ∀ extent, loop.otherwise = some extent → ∀ world, I world →
      Settles I [blockFrame code extent] world)
    (next : Int) (world : World σ) (h : I world) :
    Settles I [.count code name first last next loop] world := by
  induction hleft : (last + 1 - next).toNat generalizing next world with
  | zero =>
    have hdone : ¬ next ≤ last := by omega
    refine Settles.of_running (by simp only [step, if_neg hdone]; rfl) ?_
    rw [List.append_nil]
    exact settles_elseFrames helse (hnote world _ h)
  | succ left ih =>
    have hround : next ≤ last := by omega
    refine Settles.of_running (by simp only [step, if_pos hround]; rfl) ?_
    refine Settles.cons (hbody _ (hassign world _ h)) fun middle hmiddle => ?_
    exact ih (next + 1) middle hmiddle (by omega)

/-! ## Blocks -/

section

variable {limit depth : Nat} {code : Code}

/-- Going on after a statement that starts no call, if all blocks behind it come to an end. -/
theorem settles_follow (hcode : Whileless code.tokens) {cursor stop : Nat} {flow : Flow}
    (hplain : flow.Plain) (hforward : flow.Forward code cursor)
    (hbehind : ∀ (place stop : Nat) (world : World σ), cursor < place → world.Steady limit depth →
      Settles (World.Steady limit depth) [.block code place stop] world)
    {world final : World σ} (hstep : step ⟨[.block code cursor stop], world⟩ =
      follow code stop flow [] final) (h : final.Steady limit depth) :
    Settles (World.Steady limit depth) [.block code cursor stop] world := by
  cases flow with
  | advance next =>
    exact Settles.of_running hstep (hbehind next stop final hforward.1 h)
  | enter extent next =>
    refine Settles.of_running hstep (Settles.cons (hbehind _ _ final hforward.1.lt_start h) ?_)
    exact fun middle hmiddle => hbehind next stop middle hforward.2.1 hmiddle
  | retest condition loop next =>
    -- the statement would be a `while`
    obtain ⟨t, ht, hword⟩ := (Option.any_eq_true _ _).1 hforward.1
    rw [hcode t (Array.mem_of_getElem? ht)] at hword
    cases hword
  | count name first last loop next =>
    have hloop := hforward.1
    have hcount : Settles (World.Steady limit depth)
        [.count code name first.toInt last.toInt first.toInt loop] final := by
      refine settles_count name _ _ (fun world event hworld => ?_) (fun world value hworld => ?_)
        (fun world hworld => ?_) (fun extent heq world hworld => ?_) _ final h
      · exact hworld.deeds hcode (.single (.note world event))
      · exact hworld.deeds hcode (.single (.assign world name value))
      · exact hbehind _ _ world hloop.body.lt_start hworld
      · exact hbehind _ _ world (hloop.otherwise extent heq).lt_start hworld
    refine Settles.of_running hstep (Settles.cons hcount ?_)
    exact fun middle hmiddle => hbehind next stop middle hforward.2.1 hmiddle
  | call body next => exact absurd rfl (hplain body next)
  | exit => exact settles_of_halted hstep nofun

/-- A block comes to an end if the bodies that it calls do, by induction on what is left of the
code. -/
theorem settles_block
    (hcalls : depth < limit → ∀ body : Code, Whileless body.tokens → ∀ world : World σ,
      world.Steady limit (depth + 1) →
        Settles (World.Steady limit (depth + 1)) [.block body 0 body.size] world)
    (hcode : Whileless code.tokens) (cursor stop : Nat) (world : World σ)
    (h : world.Steady limit depth) :
    Settles (World.Steady limit depth) [.block code cursor stop] world := by
  induction hleft : code.size - cursor using Nat.strongRecOn generalizing cursor stop world with
  | ind left ih =>
    by_cases hinside : cursor < stop ∧ cursor < code.size
    · have hbehind : ∀ (place stop : Nat) (world : World σ), cursor < place →
          world.Steady limit depth →
          Settles (World.Steady limit depth) [.block code place stop] world := by
        intro place stop world hlt hworld
        exact ih (code.size - place) (by omega) place stop world hworld rfl
      have hstep := step_block hinside [] world
      have hdoes := does_execute hinside.2 world
      cases hexecute : (Statement.execute code cursor).run world with
      | error abort final =>
        rw [hexecute] at hstep
        exact settles_of_halted hstep (ne_next_of_step_halted hstep)
      | ok flow final =>
        have hforward := returns_execute hinside.2 world flow final h.scans hexecute
        rw [hexecute] at hstep hdoes
        cases hdoes with
        | goesOn hplain hdeeds =>
          exact settles_follow hcode hplain hforward hbehind hstep (h.deeds hcode hdeeds)
        | @called name span body next hcall hget hlimit =>
          have hbody := h.bodies name body hget
          rw [h.depth, h.callLimit] at hlimit
          refine Settles.of_running hstep ?_
          refine Settles.cons (hcalls hlimit body hbody _ (h.startCall name body)) ?_
          intro middle hmiddle
          exact Settles.of_running rfl (hbehind next stop _ hforward.1 hmiddle.endCall)
    · refine Settles.of_running (by simp only [step, if_neg hinside]; rfl) ?_
      exact settles_nil h

/-- Every block without `while` comes to an end, by induction on the number of calls that may still
start. -/
theorem settles_whileless (hcode : Whileless code.tokens) (cursor stop : Nat) (world : World σ)
    (h : world.Steady limit depth) :
    Settles (World.Steady limit depth) [.block code cursor stop] world := by
  induction hleft : limit - depth generalizing depth code cursor stop world with
  | zero =>
    refine settles_block (fun hlimit => ?_) hcode cursor stop world h
    omega
  | succ left ih =>
    refine settles_block (fun hlimit body hbody inner hinner => ?_) hcode cursor stop world h
    exact ih hbody 0 body.size inner hinner (by omega)

end

end Machine

/-! ## Runs -/

/-- **Scripts without `while` come to an end.**  If neither the tokens nor a stored body has a
`while`, every run of a range of the tokens comes to an end: it is done, by an `exit` or because
nothing is left to do, or an error ends it.  At each moment of the run, the statement that is
executed goes on behind itself. -/
theorem runRange_terminates [Console σ] {context : Context} {tokens : Array Token}
    (htokens : Whileless tokens) (hbodies : context.functions.Whileless) (console : σ)
    (journal : Journal) (extent : Extent) :
    (∃ fuel report, context.runRange fuel console journal tokens extent = some report ∧
      ((∃ signal, report.outcome = .done signal) ∨ ∃ e, report.outcome = .failed e)) ∧
    ∀ later, Machine.Reaches
        (Machine.start (.program tokens) extent (context.world console journal)) later →
      later.Advances := by
  have halike := context.alike_start console journal tokens extent
  refine ⟨?_, fun later hreaches => ?_⟩
  · have hsteady : World.Steady context.callLimit context.depth
        { context.world console journal with closes := none } := ⟨rfl, rfl, rfl, hbodies⟩
    obtain ⟨fuel, outcome, final, hrun, -⟩ :=
      Machine.settles_whileless
        (show Whileless (Code.program tokens).tokens from htokens) extent.start
        extent.stop _ hsteady
    have hfault := Machine.ne_fault_of_run rfl hrun
    -- the run that remembers closes ends with the one that scans for them
    have hobserve := Machine.observe_run halike fuel
    rw [show Machine.blockFrame (.program tokens) extent = .block _ _ _ from rfl, hrun,
      Option.map_some] at hobserve
    obtain ⟨⟨outcome', final'⟩, hrun', heq⟩ := Option.map_eq_some_iff.1 hobserve
    obtain rfl : outcome' = outcome := (Prod.mk.inj heq).1
    refine ⟨fuel, .ofWorld outcome' final', ?_, ?_⟩
    · rw [Context.runRange, Context.finish, Machine.start, Machine.blockFrame, hrun']
      rfl
    · cases outcome' with
      | done signal => exact Or.inl ⟨signal, rfl⟩
      | failed e => exact Or.inr ⟨e, rfl⟩
      | fault => exact absurd rfl hfault
  · obtain ⟨plain, -, hlater⟩ := Machine.exists_reaches_alike halike hreaches
    exact Machine.advances_of_alike hlater

/-- The tokens of `for i in 9223372036854775806 to 9223372036854775807`, of a call of `f`, and of
`end`. -/
def countToGreatest : Array Token :=
  #[⟨.keyword .forLoop, "for", ⟨1, 0⟩⟩, ⟨.identifier "i", "i", ⟨1, 4⟩⟩,
    ⟨.keyword .inBound, "in", ⟨1, 6⟩⟩,
    ⟨.number (.int 9223372036854775806), "9223372036854775806", ⟨1, 9⟩⟩,
    ⟨.keyword .toBound, "to", ⟨1, 29⟩⟩,
    ⟨.number (.int 9223372036854775807), "9223372036854775807", ⟨1, 32⟩⟩,
    ⟨.newline, "\n", ⟨1, 51⟩⟩,
    callOf ⟨2, 0⟩, ⟨.newline, "\n", ⟨2, 1⟩⟩, ⟨.keyword .endBlock, "end", ⟨3, 0⟩⟩]

theorem whileless_selfCalling : selfCalling.functions.Whileless := by
  intro name body hget
  rcases FunctionTable.stored_cases hget with ⟨-, rfl⟩ | ⟨-, hold⟩
  · decide
  · exact absurd (hold.symm.trans (FunctionTable.get?_empty name)) nofun

/-- A loop up to the greatest integer, whose body calls a function that calls itself. -/
theorem runRange_terminates_countToGreatest :
    Whileless countToGreatest ∧ selfCalling.functions.Whileless ∧
      ∃ fuel report,
        selfCalling.runRange fuel (⟨[], []⟩ : Console.Buffered) .silent countToGreatest ⟨0, 10⟩ =
          some report ∧
        ((∃ signal, report.outcome = .done signal) ∨ ∃ e, report.outcome = .failed e) :=
  have htokens : Whileless countToGreatest := by decide
  ⟨htokens, whileless_selfCalling,
    (runRange_terminates htokens whileless_selfCalling _ _ _).1⟩

end TokenScript
