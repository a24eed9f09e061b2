import TokenScript.Proofs.CallDepth
import TokenScript.Proofs.Program.Refinement
import TokenScript.Proofs.Relocation.Statements
import TokenScript.Proofs.Steps

/-!
# Runs do not look at places

Two machines whose frames hold the same statements in different places take their steps side by
side: each step of the first is matched by a step of the second.  When the code of the first is all
that there is in the second, they also end side by side, with the same signal, or for the same
cause.

So nothing that a run leaves behind depends on the places of tokens, except the places themselves:
in the errors that it reports, in the bodies that it stores, and in the journal.

* `Frame.Moved`, `Machine.Moved`: what is still to do, in other places.
* `Machine.step_moved`, `Machine.run_moved`: one step, and a whole run.
* `Report.Similar`: reports that are equal up to places.
* `runs_similar_of_shapes`: programs with the same tokens up to places.
-/

namespace TokenScript

variable {σ : Type}

/-! ## Frames -/

/-- The same thing is still to do, in other places. -/
inductive Frame.Moved (whole : Prop) : Frame → Frame → Prop
  | block {offset cursor cursor' stop stop' : Nat} {code other : Code} :
    Relocated whole offset code other → cursor' = cursor + offset → stop' = stop + offset →
      stop ≤ code.size → Moved whole (.block code cursor stop) (.block other cursor' stop')
  | retest {offset condition condition' : Nat} {code other : Code} {loop loop' : Loop}
    (rounds : Nat) :
    Relocated whole offset code other → IndexMoved code offset condition condition' →
      loop.Moved code offset loop' →
      Moved whole (.retest code condition loop rounds) (.retest other condition' loop' rounds)
  | count {offset : Nat} {code other : Code} {loop loop' : Loop} (name : String)
    (first last next : Int) : Relocated whole offset code other → loop.Moved code offset loop' →
      Moved whole (.count code name first last next loop) (.count other name first last next loop')
  | call : Moved whole .call .call

/-- Machines that have the same things to do, in other places. -/
structure Machine.Moved (whole : Prop) (machine other : Machine σ) : Prop where
  frames : List.Forall₂ (Frame.Moved whole) machine.frames other.frames
  world : machine.world.Similar other.world

/-- Outcomes that are equal up to places.  Errors have the same cause, and so the same family,
message and help. -/
def Outcome.Similar : Outcome → Outcome → Prop
  | .done signal, .done signal' => signal = signal'
  | .failed e, .failed d => e.cause = d.cause
  | .fault, .fault => True
  | _, _ => False

theorem Abort.Similar.outcome {abort abort' : Abort} (h : abort.Similar abort') :
    abort.outcome.Similar abort'.outcome := by
  cases abort <;> cases abort' <;> exact h

/-- What one step leads to, in one place and in another.  Unless the code is the whole rest of the
other code, nothing is said of the other machine if the first one fails. -/
def Status.Moved (whole : Prop) : Status σ → Status σ → Prop
  | .running machine, .running other => machine.Moved whole other
  | .halted outcome world, .halted outcome' world' =>
    whole ∨ (∃ signal, outcome = .done signal) → outcome.Similar outcome' ∧ world.Similar world'
  | .halted outcome _, .running _ => ¬whole ∧ ∀ signal, outcome ≠ .done signal
  | .running _, .halted _ _ => False

namespace World.Similar

variable {world other : World σ}

theorem note (h : world.Similar other) (event event' : Event) :
    (world.note event).Similar (other.note event') :=
  { h with }

theorem assign (h : world.Similar other) (name : String) (value : Value) :
    (world.assign name value).Similar (other.assign name value) :=
  { h with context := h.context.assign name value }

theorem endCall (h : world.Similar other) : world.endCall.Similar other.endCall :=
  { h with context := h.context.withDepth (· - 1) }

theorem entered (h : world.Similar other) (flow flow' : Flow) :
    (flow.entered world).Similar (flow'.entered other) := by
  cases flow <;> cases flow' <;> exact { h with }

theorem unwind {whole : Prop} {frames frames' : List Frame} (h : world.Similar other)
    (hframes : List.Forall₂ (Frame.Moved whole) frames frames') :
    (world.unwind frames).Similar (other.unwind frames') := by
  induction hframes generalizing world other with
  | nil => exact h
  | cons hframe _ ih =>
    cases hframe with
    | call => exact ih h.endCall
    | block | retest | count => exact ih h

end World.Similar

/-! ## Steps -/

section

variable {whole : Prop} {offset : Nat} {code other : Code}

theorem Extent.Moved.blockFrame {extent extent' : Extent} (h : extent.Moved code offset extent')
    (hcode : Relocated whole offset code other) :
    Frame.Moved whole (Machine.blockFrame code extent) (Machine.blockFrame other extent') :=
  .block hcode h.start h.stop h.inside

theorem Loop.Moved.elseFrames {loop loop' : Loop} (h : loop.Moved code offset loop')
    (hcode : Relocated whole offset code other) :
    List.Forall₂ (Frame.Moved whole) (Machine.elseFrames code loop)
      (Machine.elseFrames other loop') := by
  obtain ⟨line, body, otherwise⟩ := loop
  obtain ⟨line', body', otherwise'⟩ := loop'
  cases h.otherwise with
  | none => exact .nil
  | some hextent => exact .cons (hextent.blockFrame hcode) .nil

/-- A flow ends the script in both places, or it puts the same frames on top and goes on at the same
statement. -/
theorem Flow.Moved.frames {flow flow' : Flow} (h : flow.Moved code offset flow')
    (hcode : Relocated whole offset code other) :
    (flow = .exit ∧ flow' = .exit) ∨
      ∃ i j, flow.next? = some i ∧ flow'.next? = some j ∧ IndexMoved code offset i j ∧
        List.Forall₂ (Frame.Moved whole) (flow.frames code) (flow'.frames other) := by
  cases h with
  | advance hij => exact Or.inr ⟨_, _, rfl, rfl, hij, .nil⟩
  | enter hblock hij => exact Or.inr ⟨_, _, rfl, rfl, hij, .cons (hblock.blockFrame hcode) .nil⟩
  | retest hcondition hloop hij =>
    exact Or.inr ⟨_, _, rfl, rfl, hij, .cons (.retest 0 hcode hcondition hloop) .nil⟩
  | count name first last hloop hij =>
    exact Or.inr ⟨_, _, rfl, rfl, hij, .cons (.count name _ _ _ hcode hloop) .nil⟩
  | @call body body' _ _ hbody hij =>
    have hrelocated : Relocated whole 0 body body' := .of_shapes hbody
    have hsize : body'.size = body.size + 0 := by
      have hlength := congrArg List.length hbody
      simpa [Code.shapes, Code.size] using hlength.symm
    exact Or.inr ⟨_, _, rfl, rfl, hij,
      .cons (.block hrelocated rfl hsize (Nat.le_refl _)) (.cons .call .nil)⟩
  | exit => exact Or.inl ⟨rfl, rfl⟩

end

namespace Machine

variable {whole : Prop} {world world' : World σ}

/-- Going on after a statement. -/
theorem follow_moved {offset stop stop' : Nat} {code other : Code} {flow flow' : Flow}
    {rest rest' : List Frame} (hflow : flow.Moved code offset flow')
    (hcode : Relocated whole offset code other) (hstop : stop' = stop + offset)
    (hinside : stop ≤ code.size) (hrest : List.Forall₂ (Frame.Moved whole) rest rest')
    (hworld : world.Similar world') :
    (follow code stop flow rest world).Moved whole (follow other stop' flow' rest' world') := by
  rcases hflow.frames hcode with ⟨rfl, rfl⟩ | ⟨i, j, hi, hj, hij, hframes⟩
  · exact fun _ => ⟨rfl, hworld.unwind hrest⟩
  · rw [follow_eq hi, follow_eq hj]
    refine ⟨List.rel_append hframes (.cons ?_ hrest), hworld.entered flow flow'⟩
    exact .block hcode hij.eq hstop hinside

/-- The machine has halted because an action was abandoned. -/
theorem halted_moved {abort abort' : Abort} {rest rest' : List Frame}
    (hrest : List.Forall₂ (Frame.Moved whole) rest rest')
    (h : whole → abort.Similar abort' ∧ world.Similar world') :
    Status.Moved whole (.halted abort.outcome (world.unwind rest))
      (.halted abort'.outcome (world'.unwind rest')) := by
  rintro (hwhole | ⟨signal, hdone⟩)
  · obtain ⟨habort, hworld⟩ := h hwhole
    exact ⟨habort.outcome, hworld.unwind hrest⟩
  · cases abort <;> cases hdone

/-- Where something follows the code, a machine whose action was abandoned says nothing. -/
theorem abandoned_moved (hopen : ¬whole) (abort : Abort) (status : Status σ) :
    Status.Moved whole (.halted abort.outcome world) status := by
  have hfails : ∀ signal, abort.outcome ≠ .done signal := by
    intro signal
    cases abort <;> exact nofun
  cases status with
  | running machine => exact ⟨hopen, hfails⟩
  | halted outcome final =>
    rintro (hwhole | ⟨signal, hdone⟩)
    · exact absurd hwhole hopen
    · exact absurd hdone (hfails signal)

variable [Console σ]

/-- One step. -/
theorem step_moved {machine other : Machine σ} (h : machine.Moved whole other) :
    machine.step.Moved whole other.step := by
  obtain ⟨frames, world⟩ := machine
  obtain ⟨frames', world'⟩ := other
  obtain ⟨hframes, hworld⟩ := h
  cases hframes with
  | nil => exact fun _ => ⟨rfl, hworld⟩
  | @cons _ _ rest rest' hframe hrest =>
    cases hframe with
    | call => exact ⟨hrest, hworld.endCall⟩
    | @block offset cursor cursor' stop stop' code other hcode hcursor hstop hinside =>
      have hsize := hcode.size_le
      by_cases hlt : cursor < stop
      · rw [step_block ⟨hlt, by omega⟩, step_block ⟨by omega, by omega⟩]
        have hexecute := tracks_execute hcode hcursor (by omega) world world' hworld
        revert hexecute
        cases (Statement.execute code cursor).run world with
        | ok flow final =>
          cases (Statement.execute other cursor').run world' with
          | ok flow' final' =>
            rintro ⟨hflow, hfinal⟩
            exact follow_moved hflow hcode hstop hinside hrest hfinal
          | error abort' final' => exact False.elim
        | error abort final =>
          cases (Statement.execute other cursor').run world' with
          | ok flow' final' => exact fun hopen => abandoned_moved hopen abort _
          | error abort' final' => exact halted_moved hrest
      · have hout : ¬(cursor < stop ∧ cursor < code.size) := by omega
        have hout' : ¬(cursor' < stop' ∧ cursor' < other.size) := by omega
        simp only [step, if_neg hout, if_neg hout']
        exact ⟨hrest, hworld⟩
    | @retest offset condition condition' code other loop loop' rounds hcode hcondition hloop =>
      simp only [step]
      have hevaluate := tracks_evaluate hcode hcondition world world' hworld
      revert hevaluate
      cases (Action.evaluate code condition).run world with
      | ok value final =>
        cases (Action.evaluate other condition').run world' with
        | ok value' final' =>
          rintro ⟨rfl, hfinal⟩
          dsimp only
          split
          · exact ⟨.cons (hloop.body.blockFrame hcode)
              (.cons (.retest (rounds + 1) hcode hcondition hloop) hrest), hfinal⟩
          · exact ⟨List.rel_append (hloop.elseFrames hcode) hrest, hfinal.note _ _⟩
        | error abort' final' => exact False.elim
      | error abort final =>
        cases (Action.evaluate other condition').run world' with
        | ok value' final' => exact fun hopen => abandoned_moved hopen abort _
        | error abort' final' => exact halted_moved hrest
    | @count offset code other loop loop' name first last next hcode hloop =>
      simp only [step]
      split
      · exact ⟨.cons (hloop.body.blockFrame hcode)
          (.cons (.count name first last (next + 1) hcode hloop) hrest), hworld.assign name _⟩
      · exact ⟨List.rel_append (hloop.elseFrames hcode) hrest, hworld.note _ _⟩

/-- A whole run, when the code is all that there is. -/
theorem run_moved {machine other : Machine σ} (h : machine.Moved True other) (fuel : Nat) :
    Option.Rel (fun answer answer' => answer.1.Similar answer'.1 ∧ answer.2.Similar answer'.2)
      (run fuel machine) (run fuel other) := by
  induction fuel generalizing machine other with
  | zero => exact .none
  | succ fuel ih =>
    have hstep := step_moved h
    rw [run, run]
    revert hstep
    cases machine.step with
    | running next =>
      cases other.step with
      | running next' => exact fun hnext => ih hnext
      | halted outcome' final' => exact False.elim
    | halted outcome final =>
      cases other.step with
      | running next' => exact fun hnext => absurd trivial hnext.1
      | halted outcome' final' => exact fun hend => .some (hend (Or.inl trivial))

end Machine

/-! ## Reports -/

/-- Reports that are equal up to places. -/
structure Report.Similar (report other : Report σ) : Prop where
  outcome : report.outcome.Similar other.outcome
  context : report.context.Similar other.context
  console : report.console = other.console

namespace Context

/-- Reports of runs are as similar as the worlds in which machines halt that come to the same. -/
theorem reports_similar {report other : Option (Report σ)}
    {answer answer' : Option (Outcome × World σ)}
    (hreport : report.map (fun report => (report.outcome, report.context, report.console)) =
      answer.map fun answer => (answer.1, answer.2.context, answer.2.console))
    (hother : other.map (fun report => (report.outcome, report.context, report.console)) =
      answer'.map fun answer => (answer.1, answer.2.context, answer.2.console))
    (h : Option.Rel (fun answer answer' => answer.1.Similar answer'.1 ∧ answer.2.Similar answer'.2)
      answer answer') : Option.Rel Report.Similar report other := by
  cases h with
  | none =>
    rw [Option.map_none, Option.map_eq_none_iff] at hreport hother
    rw [hreport, hother]
    exact .none
  | some hab =>
    rw [Option.map_some] at hreport hother
    obtain ⟨report, rfl, heq⟩ := Option.map_eq_some_iff.1 hreport
    obtain ⟨other, rfl, heq'⟩ := Option.map_eq_some_iff.1 hother
    simp only [Prod.mk.injEq] at heq heq'
    obtain ⟨houtcome, hworld⟩ := hab
    refine .some ⟨?_, ?_, ?_⟩
    · rw [heq.1, heq'.1]
      exact houtcome
    · rw [heq.2.1, heq'.2.1]
      exact hworld.context
    · rw [heq.2.2, heq'.2.2]
      exact hworld.console

/-- Contexts that are equal up to places, with one console, make similar worlds. -/
theorem Similar.scanning {context other : Context} (h : context.Similar other) (console : σ)
    (journal journal' : Journal) :
    World.Similar { context.world console journal with closes := none }
      { other.world console journal' with closes := none } :=
  ⟨h, rfl, rfl, rfl⟩

variable [Console σ]

/-- What a run of a program reports is what a machine comes to that remembers no closes. -/
theorem runTokens_shown (fuel : Nat) (context : Context) (console : σ) (journal : Journal)
    (tokens : Array Token) :
    (context.runTokens fuel console journal tokens).map
        (fun report => (report.outcome, report.context, report.console)) =
      (Machine.run fuel
          (.start (.program tokens) ⟨0, tokens.size⟩
            { context.world console (journal.note (.runStarted tokens.size)) with
              closes := none })).map
        fun answer => (answer.1, answer.2.context, answer.2.console) := by
  rw [runTokens, Option.map_map]
  simp only [Function.comp_def, outcome_noteEnd, context_noteEnd, console_noteEnd]
  exact Program.runRange_shown fuel context console _ tokens ⟨0, tokens.size⟩

/-- The same tokens up to places, run in contexts that are equal up to places. -/
theorem runTokens_similar {context other : Context} {tokens tokens' : Array Token}
    (hcontext : context.Similar other)
    (htokens : tokens.toList.map Token.shape = tokens'.toList.map Token.shape) (fuel : Nat)
    (console : σ) (journal journal' : Journal) :
    Option.Rel Report.Similar (context.runTokens fuel console journal tokens)
      (other.runTokens fuel console journal' tokens') := by
  have hcode : Relocated True 0 (.program tokens) (.program tokens') := .of_shapes htokens
  have hsize : tokens'.size = tokens.size + 0 := by
    have hlength := congrArg List.length htokens
    simpa using hlength.symm
  refine reports_similar (runTokens_shown ..) (runTokens_shown ..) (Machine.run_moved ⟨?_, ?_⟩ fuel)
  · exact .cons (.block hcode rfl hsize (Nat.le_refl _)) .nil
  · exact hcontext.scanning console _ _

/-- A source text, and another text that lays out its tokens. -/
theorem runSource_similar_of_laid {source text : String} {tokens : Array Token}
    (h : tokenize source = .ok tokens) (hlaid : Laid false tokens.toList text.toList) (fuel : Nat)
    (context : Context) (console : σ) (journal journal' : Journal) :
    Option.Rel Report.Similar (context.runSource fuel console journal source)
      (context.runSource fuel console journal' text) := by
  obtain ⟨again, hagain, hshape⟩ := exists_tokenize_of_laid h hlaid
  rw [runSource, runSource, h, hagain]
  exact runTokens_similar (.refl context) hshape.symm fuel console _ _

end Context

/-- **Formatting never changes meaning.**  Take two programs with the same tokens up to places, two
contexts that are equal up to the places in stored bodies, and one console.  For every number of
steps, both runs come to an end or neither does; and then they end with the same signal or for the
same cause, with the same variables, count of calls and console, and with functions that are equal
up to places.  So it goes for every source text and the plain layout of its tokens. -/
theorem runs_similar_of_shapes (σ : Type) [Console σ] :
    (∀ (context other : Context) (tokens tokens' : Array Token), context.Similar other →
      tokens.toList.map Token.shape = tokens'.toList.map Token.shape →
      ∀ (fuel : Nat) (console : σ) (journal journal' : Journal),
        Option.Rel Report.Similar (context.runTokens fuel console journal tokens)
          (other.runTokens fuel console journal' tokens')) ∧
    ∀ (source : String) (tokens : Array Token), tokenize source = .ok tokens →
      ∀ (fuel : Nat) (context : Context) (console : σ) (journal journal' : Journal),
        Option.Rel Report.Similar (context.runSource fuel console journal source)
          (context.runSource fuel console journal' (Token.layout tokens.toList)) := by
  refine ⟨fun context other tokens tokens' hcontext htokens => ?_, fun source tokens h => ?_⟩
  · exact Context.runTokens_similar hcontext htokens
  · exact Context.runSource_similar_of_laid h (laid_layout h)

/-- A function that calls itself is stopped in its second call, wherever it was written. -/
theorem runs_similar_of_shapes_selfCalling :
    (∃ report other,
      selfCalling.runTokens 2 (⟨[], []⟩ : Console.Buffered) .silent #[callOf ⟨3, 0⟩] = some report ∧
      ((Context.fresh 1).define "f" #[callOf ⟨8, 2⟩] [1]).runTokens 2 ⟨[], []⟩ .silent
        #[callOf ⟨9, 4⟩] = some other ∧
      report.outcome = .failed ⟨.evaluation (.callDepthExceeded 1 "f"), ⟨1, 5⟩⟩ ∧
      report.Similar other) ∧
    tokenize "x=\n" = .ok assignmentLine ∧
    Option.Rel Report.Similar
      ((Context.fresh 1).runSource 4 (⟨[], []⟩ : Console.Buffered) .silent "x=\n")
      ((Context.fresh 1).runSource 4 ⟨[], []⟩ .silent (Token.layout assignmentLine.toList)) := by
  obtain ⟨htokens, hsource⟩ := runs_similar_of_shapes Console.Buffered
  refine ⟨?_, tokenize_assignmentLine, hsource _ _ tokenize_assignmentLine 4 _ _ _ _⟩
  have hbody : #[callOf ⟨1, 5⟩].toList.map Token.shape = #[callOf ⟨8, 2⟩].toList.map Token.shape :=
    rfl
  have hsimilar : selfCalling.Similar ((Context.fresh 1).define "f" #[callOf ⟨8, 2⟩] [1]) :=
    (Context.Similar.refl (Context.fresh 1)).define "f" hbody [] [1]
  obtain ⟨report, hrun, houtcome⟩ := runTokens_selfCalling
  have hrel := htokens _ _ #[callOf ⟨3, 0⟩] #[callOf ⟨9, 4⟩] hsimilar rfl 2 ⟨[], []⟩ .silent .silent
  rw [hrun] at hrel
  cases hother : ((Context.fresh 1).define "f" #[callOf ⟨8, 2⟩] [1]).runTokens 2
      (⟨[], []⟩ : Console.Buffered) .silent #[callOf ⟨9, 4⟩] with
  | none =>
    rw [hother] at hrel
    cases hrel
  | some other =>
    rw [hother] at hrel
    cases hrel with
    | some hreports => exact ⟨report, other, hrun, rfl, houtcome, hreports⟩

end TokenScript
