import TokenScript.Interpreter
import TokenScript.Proofs.Steps

/-!
# The number of calls under way

A context counts the calls that are under way, and the count outlives the run.  Every call that
starts leaves a frame behind that takes it off the count, and a run that ends early ends the calls
of all the frames that are left.  So at each moment of a run the count is what it was at the start
and the number of those frames, and at the end it is what it was at the start, whatever the end is.
A call starts only below the limit, so the count never passes the limit either.

* `Frame.calls`: how many calls end among the frames.
* `Machine.Balanced`: the count, at a moment of a run.
* `Request`, `Context.serve`: the steps of a session, in which one context serves many runs.
* `callDepth_balanced`: the count is balanced and bounded, and zero between the steps of a session.
-/

namespace TokenScript

variable {σ : Type}

/-- How many calls end among the frames. -/
def Frame.calls (frames : List Frame) : Nat := frames.countP fun frame => frame.code?.isNone

namespace Frame

@[simp] theorem calls_call (rest : List Frame) : calls (.call :: rest) = calls rest + 1 := by
  simp [calls, code?]

theorem calls_cons {frame : Frame} {code : Code} (h : frame.code? = some code) (rest : List Frame) :
    calls (frame :: rest) = calls rest := by
  simp [calls, h]

theorem calls_append {extra : List Frame} {code : Code}
    (h : ∀ frame ∈ extra, frame.code? = some code) (rest : List Frame) :
    calls (extra ++ rest) = calls rest := by
  have hextra : extra.countP (fun frame => frame.code?.isNone) = 0 := by
    refine List.countP_eq_zero.2 fun frame hmem => ?_
    simp [h frame hmem]
  rw [calls, List.countP_append, hextra, Nat.zero_add, calls]

end Frame

namespace World

theorem depth_unwind (world : World σ) (frames : List Frame) :
    (world.unwind frames).context.depth = world.context.depth - Frame.calls frames := by
  induction frames generalizing world with
  | nil => rfl
  | cons frame rest ih =>
    cases frame with
    | call =>
      rw [unwind, ih, Frame.calls_call]
      show world.context.depth - 1 - Frame.calls rest = _
      omega
    | block code cursor stop => rw [unwind, ih, Frame.calls_cons rfl]
    | retest code condition loop rounds => rw [unwind, ih, Frame.calls_cons rfl]
    | count code name first last next loop => rw [unwind, ih, Frame.calls_cons rfl]

end World

namespace Machine

/-- The count of calls, at a moment of a run that started with `base` calls under way. -/
structure Balanced (base limit : Nat) (machine : Machine σ) : Prop where
  depth : machine.world.context.depth = base + Frame.calls machine.frames
  callLimit : machine.world.context.callLimit = limit

/-- The count is not above the limit. -/
structure Bounded (limit : Nat) (machine : Machine σ) : Prop where
  callLimit : machine.world.context.callLimit = limit
  depth_le : machine.world.context.depth ≤ limit

variable [Console σ] {base limit : Nat} {machine later : Machine σ}

/-- A step keeps the count balanced. -/
theorem Balanced.takes {next : Machine σ} (h : Balanced base limit machine)
    (htakes : Takes machine (.running next)) : Balanced base limit next := by
  cases htakes with
  | returned rest world =>
    have hdepth := h.depth
    simp only [Frame.calls_call] at hdepth
    refine ⟨?_, h.callLimit⟩
    show world.context.depth - 1 = base + Frame.calls rest
    omega
  | @worked frame rest world final code extra hframe hdeeds hextra =>
    have hdepth := h.depth
    simp only [Frame.calls_cons hframe] at hdepth
    refine ⟨?_, hdeeds.callLimit.trans h.callLimit⟩
    rw [Frame.calls_append hextra, ← hdepth]
    exact hdeeds.depth
  | @called code body cursor stop next rest world name span hcall hget hlimit =>
    have hdepth := h.depth
    have hcode : ∀ at', (Frame.block code at' stop).code? = some code := fun _ => rfl
    simp only [Frame.calls_cons (hcode cursor)] at hdepth
    refine ⟨?_, h.callLimit⟩
    rw [Frame.calls_cons rfl, Frame.calls_call, Frame.calls_cons (hcode next)]
    show world.context.depth + 1 = base + (Frame.calls rest + 1)
    omega

/-- A step that ends a run ends all calls that started in it. -/
theorem Balanced.takes_halted {outcome : Outcome} {final : World σ}
    (h : Balanced base limit machine) (htakes : Takes machine (.halted outcome final)) :
    final.context.depth = base := by
  cases htakes with
  | finished world => exact h.depth
  | @exited frame rest code world final hframe hdeeds =>
    have hdepth := h.depth
    simp only [Frame.calls_cons hframe] at hdepth
    rw [World.depth_unwind, hdeeds.depth, hdepth]
    omega
  | @abandoned frame rest code world last final abort hframe hdeeds hhalts =>
    have hdepth := h.depth
    simp only [Frame.calls_cons hframe] at hdepth
    rw [World.depth_unwind, hhalts.context, hdeeds.depth, hdepth]
    omega
  | @refused code body cursor stop rest world name span hcall hget hlimit =>
    have hdepth := h.depth
    have hcode : (Frame.block code cursor stop).code? = some code := rfl
    simp only [Frame.calls_cons hcode] at hdepth
    rw [World.depth_unwind, hdepth]
    omega

/-- A step keeps the count below the limit. -/
theorem Bounded.takes {next : Machine σ} (h : Bounded limit machine)
    (htakes : Takes machine (.running next)) : Bounded limit next := by
  cases htakes with
  | returned rest world => exact ⟨h.callLimit, Nat.le_trans (Nat.sub_le _ 1) h.depth_le⟩
  | worked code extra hframe hdeeds hextra =>
    exact ⟨hdeeds.callLimit.trans h.callLimit, hdeeds.depth ▸ h.depth_le⟩
  | called hcall hget hlimit => exact ⟨h.callLimit, h.callLimit ▸ hlimit⟩

theorem Balanced.reaches (h : Balanced base limit machine) (hreaches : Reaches machine later) :
    Balanced base limit later :=
  hreaches.invariant h fun _ _ => Balanced.takes

theorem Bounded.reaches (h : Bounded limit machine) (hreaches : Reaches machine later) :
    Bounded limit later :=
  hreaches.invariant h fun _ _ => Bounded.takes

/-- At the end of a run the count is what it was at the start. -/
theorem Balanced.run {fuel : Nat} {outcome : Outcome} {final : World σ}
    (h : Balanced base limit machine) (hrun : machine.run fuel = some (outcome, final)) :
    final.context.depth = base := by
  obtain ⟨last, hreaches, hstep⟩ := exists_reaches_of_run hrun
  have htakes := takes_step last
  rw [hstep] at htakes
  exact (h.reaches hreaches).takes_halted htakes

omit [Console σ] in
theorem balanced_start (code : Code) (extent : Extent) (world : World σ) :
    Balanced world.context.depth world.context.callLimit (start code extent world) :=
  ⟨rfl, rfl⟩

/-- The machine that makes a call, in a world in which the call has started. -/
def calling (body : Code) (world : World σ) : Machine σ :=
  ⟨[.block body 0 body.size, .call], world.hold body⟩

omit [Console σ] in
theorem balanced_calling (body : Code) (world : World σ) (name : String) :
    Balanced world.context.depth world.context.callLimit (calling body (world.startCall name)) :=
  ⟨rfl, rfl⟩

end Machine

/-! ## Calls -/

/-- What an attempt to call a function comes to that has a body. -/
theorem Statement.run_invoke_of_get? {name : String} {body : Code} {world : World σ}
    (hget : world.context.functions.get? name = some body) (span : Span) :
    (invoke name span).run world =
      if world.context.callLimit ≤ world.context.depth then
        .error (.error ⟨.evaluation (.callDepthExceeded world.context.callLimit name), span⟩) world
      else .ok body (world.startCall name) := by
  rw [run_invoke, hget]
  rfl

/-- A name that stands alone and has a body is called. -/
theorem Statement.run_execute_name [Console σ] {code body : Code} {start : Nat} {t : Token}
    {name : String} (ht : code.tokens[start]? = some t) (hkind : t.kind = .identifier name)
    (hlast : code.tokens[start + 1]? = none) {world : World σ}
    (hget : world.context.functions.get? name = some body) :
    (execute code start).run world =
      if world.context.callLimit ≤ world.context.depth then
        .error (.error ⟨.evaluation (.callDepthExceeded world.context.callLimit name), t.span⟩)
          world
      else .ok (.call body (start + 1)) (world.startCall name) := by
  have hinvoke := run_invoke_of_get? hget t.span
  simp only [execute, Action.tokenAt, ht, pure_bind, hkind, named, hlast, Option.any_none,
    Bool.false_eq_true, if_false, Action.run_get_bind, hget]
  change EStateM.bind _ _ world = _
  simp only [EStateM.run] at hinvoke
  simp only [EStateM.bind, hinvoke]
  by_cases hlimit : world.context.callLimit ≤ world.context.depth
  · rw [if_pos hlimit, if_pos hlimit]
  · rw [if_neg hlimit, if_neg hlimit]
    rfl

namespace Context

variable [Console σ]

theorem depth_runRange {fuel : Nat} {context : Context} {console : σ} {journal : Journal}
    {tokens : Array Token} {extent : Extent} {report : Report σ}
    (h : context.runRange fuel console journal tokens extent = some report) :
    report.context.depth = context.depth := by
  obtain ⟨⟨outcome, final⟩, hrun, rfl⟩ := Option.map_eq_some_iff.1 h
  exact (Machine.balanced_start _ _ _).run hrun

/-- A call of a function that has a body is refused, and has no effect, or it starts. -/
theorem runCall_of_get? {context : Context} {name : String} {body : Code}
    (hget : context.functions.get? name = some body) (fuel : Nat) (console : σ) (journal : Journal)
    (span : Span) :
    context.runCall fuel console journal name span =
      if context.callLimit ≤ context.depth then
        some ⟨.failed ⟨.evaluation (.callDepthExceeded context.callLimit name), span⟩,
          context, console, journal⟩
      else finish fuel (Machine.calling body ((context.world console journal).startCall name)) := by
  have hinvoke : (Statement.invoke name span).run (context.world console journal) =
      if context.callLimit ≤ context.depth then
        .error (.error ⟨.evaluation (.callDepthExceeded context.callLimit name), span⟩)
          (context.world console journal)
      else .ok body ((context.world console journal).startCall name) :=
    Statement.run_invoke_of_get? hget span
  rw [runCall, hinvoke]
  by_cases hlimit : context.callLimit ≤ context.depth
  · rw [if_pos hlimit, if_pos hlimit]
    rfl
  · rw [if_neg hlimit, if_neg hlimit]
    rfl

theorem depth_runCall {fuel : Nat} {context : Context} {console : σ} {journal : Journal}
    {name : String} {span : Span} {report : Report σ}
    (h : context.runCall fuel console journal name span = some report) :
    report.context.depth = context.depth := by
  cases hget : context.functions.get? name with
  | none =>
    have hinvoke : (Statement.invoke name span).run (context.world console journal) =
        .error (.error ⟨.evaluation (.undefinedFunction name), span⟩)
          (context.world console journal) := by
      rw [Statement.run_invoke]
      simp only [world, hget]
    rw [runCall, hinvoke] at h
    obtain rfl := Option.some.inj h
    rfl
  | some body =>
    rw [runCall_of_get? hget] at h
    split at h
    · obtain rfl := Option.some.inj h
      rfl
    · obtain ⟨⟨outcome, final⟩, hrun, rfl⟩ := Option.map_eq_some_iff.1 h
      exact (Machine.balanced_calling body (context.world console journal) name).run hrun

theorem depth_runSource {fuel : Nat} {context : Context} {console : σ} {journal : Journal}
    {source : String} {report : Report σ}
    (h : context.runSource fuel console journal source = some report) :
    report.context.depth = context.depth := by
  rw [runSource] at h
  cases htokens : tokenize source with
  | error e =>
    rw [htokens] at h
    obtain rfl := Option.some.inj h
    rfl
  | ok tokens =>
    rw [htokens] at h
    obtain ⟨ran, hran, rfl⟩ := Option.map_eq_some_iff.1 h
    rw [context_noteEnd]
    exact depth_runRange hran

end Context

/-! ## Sessions -/

/-- A step of a session; a run has a console and a journal of its own. -/
inductive Request (σ : Type) where
  | run (console : σ) (journal : Journal) (source : String)
  | range (console : σ) (journal : Journal) (source : String) (extent : Extent)
  | call (console : σ) (journal : Journal) (name : String) (span : Span)
  | set (name : String) (value : Value)
  | define (name source : String)
  /-- Reads the limit on nested calls from a setting. -/
  | configure (setting : Option String)

namespace Context

variable [Console σ]

/-- The context after a step of a session, if the step comes to its end.  A step that fails keeps
what it did before; a source text without tokens has no effect. -/
def serve (fuel : Nat) (context : Context) : Request σ → Option Context
  | .run console journal source => (context.runSource fuel console journal source).map (·.context)
  | .range console journal source extent =>
    match tokenize source with
    | .error _ => some context
    | .ok tokens => (context.runRange fuel console journal tokens extent).map (·.context)
  | .call console journal name span =>
    (context.runCall fuel console journal name span).map (·.context)
  | .set name value => some (context.assign name value)
  | .define name source =>
    match tokenize source with
    | .error _ => some context
    | .ok tokens => some (context.define name tokens)
  | .configure setting => some { context with callLimit := (CallLimit.ofSetting setting).1 }

/-- A step of a session leads from one context to another. -/
def Serves (σ : Type) [Console σ] (context later : Context) : Prop :=
  ∃ (fuel : Nat) (request : Request σ), context.serve fuel request = some later

theorem depth_serve {context later : Context} (h : Serves σ context later) :
    later.depth = context.depth := by
  obtain ⟨fuel, request, hserve⟩ := h
  cases request with
  | run console journal source =>
    obtain ⟨report, hreport, rfl⟩ := Option.map_eq_some_iff.1 hserve
    exact depth_runSource hreport
  | range console journal source extent =>
    rw [serve] at hserve
    split at hserve
    · rw [Option.some.inj hserve]
    · obtain ⟨report, hreport, rfl⟩ := Option.map_eq_some_iff.1 hserve
      exact depth_runRange hreport
  | call console journal name span =>
    obtain ⟨report, hreport, rfl⟩ := Option.map_eq_some_iff.1 hserve
    exact depth_runCall hreport
  | set name value =>
    obtain rfl := Option.some.inj hserve
    rfl
  | define name source =>
    rw [serve] at hserve
    split at hserve
    · rw [Option.some.inj hserve]
    · obtain rfl := Option.some.inj hserve
      rfl
  | configure setting =>
    obtain rfl := Option.some.inj hserve
    rfl

theorem depth_session {context later : Context}
    (h : Relation.ReflTransGen (Serves σ) context later) : later.depth = context.depth := by
  induction h with
  | refl => rfl
  | tail _ hlast ih => exact (depth_serve hlast).trans ih

end Context

/-! ## Balance and bound -/

/-- **The number of calls under way is balanced and bounded.**

* At each moment of a run of any range of any code, the count is what it was at the start and the
  number of calls that have not returned; at the end it is what it was at the start, whatever the
  outcome.  If it was not above the limit at the start, it never is.
* A function that has a body is refused just if the count has reached the limit; then the error
  names the function at the place of the call, and nothing has changed.  Otherwise its body is run,
  and the count is balanced and bounded as above.
* The same goes for whole runs and calls, and so the count is zero after every step of a session
  that starts with a fresh context, also after steps that fail. -/
theorem callDepth_balanced (σ : Type) [Console σ] :
    (∀ (code : Code) (extent : Extent) (world : World σ),
      (∀ fuel outcome final, (Machine.start code extent world).run fuel = some (outcome, final) →
        final.context.depth = world.context.depth) ∧
      ∀ later, Machine.Reaches (Machine.start code extent world) later →
        later.world.context.depth = world.context.depth + Frame.calls later.frames ∧
        (world.context.depth ≤ world.context.callLimit →
          later.world.context.depth ≤ world.context.callLimit)) ∧
    (∀ (name : String) (span : Span) (body : Code) (world : World σ),
      world.context.functions.get? name = some body →
      ((∃ abort final, (Statement.invoke name span).run world = .error abort final) ↔
        world.context.callLimit ≤ world.context.depth) ∧
      (world.context.callLimit ≤ world.context.depth →
        (Statement.invoke name span).run world =
          .error (.error ⟨.evaluation (.callDepthExceeded world.context.callLimit name), span⟩)
            world) ∧
      ∀ started entered, (Statement.invoke name span).run world = .ok started entered →
        started = body ∧
        (∀ fuel outcome final, (Machine.calling body entered).run fuel = some (outcome, final) →
          final.context.depth = world.context.depth) ∧
        ∀ later, Machine.Reaches (Machine.calling body entered) later →
          later.world.context.depth = world.context.depth + Frame.calls later.frames ∧
          later.world.context.depth ≤ world.context.callLimit) ∧
    (∀ (fuel : Nat) (context : Context) (console : σ) (journal : Journal) (report : Report σ),
      (∀ tokens extent, context.runRange fuel console journal tokens extent = some report →
        report.context.depth = context.depth) ∧
      ∀ name span, context.runCall fuel console journal name span = some report →
        report.context.depth = context.depth) ∧
    ∀ (limit : Nat) (context : Context),
      Relation.ReflTransGen (Context.Serves σ) (Context.fresh limit) context →
      context.depth = 0 := by
  refine ⟨fun code extent world => ?_, fun name span body world hget => ?_, ?_, ?_⟩
  · have hstart := Machine.balanced_start code extent world
    refine ⟨fun fuel outcome final hrun => hstart.run hrun, fun later hreaches => ?_⟩
    refine ⟨(hstart.reaches hreaches).depth, fun hdepth => ?_⟩
    exact (Machine.Bounded.reaches ⟨rfl, hdepth⟩ hreaches).depth_le
  · rw [Statement.run_invoke_of_get? hget]
    by_cases hlimit : world.context.callLimit ≤ world.context.depth
    · rw [if_pos hlimit]
      refine ⟨⟨fun _ => hlimit, fun _ => ⟨_, _, rfl⟩⟩, fun _ => rfl, fun started entered hok => ?_⟩
      cases hok
    · rw [if_neg hlimit]
      refine ⟨⟨?_, fun hle => absurd hle hlimit⟩, fun hle => absurd hle hlimit, ?_⟩
      · rintro ⟨abort, final, herror⟩
        cases herror
      intro started entered hok
      obtain ⟨rfl, rfl⟩ := EStateM.Result.ok.inj hok
      have hstart := Machine.balanced_calling body world name
      refine ⟨rfl, fun fuel outcome final hrun => hstart.run hrun, fun later hreaches => ?_⟩
      have hbound : Machine.Bounded world.context.callLimit
          (Machine.calling body (world.startCall name)) :=
        ⟨rfl, Nat.lt_of_not_le hlimit⟩
      exact ⟨(hstart.reaches hreaches).depth, (hbound.reaches hreaches).depth_le⟩
  · intro fuel context console journal report
    exact ⟨fun tokens extent => Context.depth_runRange, fun name span => Context.depth_runCall⟩
  · intro limit context hsession
    exact Context.depth_session hsession

/-- The name `f`, at a place. -/
def callOf (span : Span) : Token := ⟨.identifier "f", "f", span⟩

/-- A context in which `f` calls itself and only one call may be under way. -/
def selfCalling : Context := (Context.fresh 1).define "f" #[callOf ⟨1, 5⟩]

/-- The program `f` fails in its second call. -/
theorem runRange_selfCalling :
    ∃ report,
      selfCalling.runRange 2 (⟨[], []⟩ : Console.Buffered) .silent #[callOf ⟨3, 0⟩] ⟨0, 1⟩ =
        some report ∧
      report.outcome = .failed ⟨.evaluation (.callDepthExceeded 1 "f"), ⟨1, 5⟩⟩ := by
  have hget : selfCalling.functions.get? "f" = some ⟨_, #[callOf ⟨1, 5⟩]⟩ :=
    FunctionTable.get?_define_self _ _ _ _
  rw [Context.runRange, Context.finish, Machine.start, Machine.blockFrame, Machine.run,
    Machine.step_block (by decide),
    Statement.run_execute_name (t := callOf ⟨3, 0⟩) rfl rfl rfl (by exact hget), if_neg (by decide)]
  simp only [Machine.follow]
  rw [Machine.run, Machine.step_block (by decide),
    Statement.run_execute_name (t := callOf ⟨1, 5⟩) rfl rfl rfl (by exact hget), if_pos (by decide)]
  exact ⟨_, rfl, rfl⟩

theorem runTokens_selfCalling :
    ∃ report,
      selfCalling.runTokens 2 (⟨[], []⟩ : Console.Buffered) .silent #[callOf ⟨3, 0⟩] = some report ∧
      report.outcome = .failed ⟨.evaluation (.callDepthExceeded 1 "f"), ⟨1, 5⟩⟩ := by
  obtain ⟨report, hreport, houtcome⟩ := runRange_selfCalling
  refine ⟨Context.noteEnd report, ?_, (Context.outcome_noteEnd report).trans houtcome⟩
  rw [Context.runTokens]
  exact congrArg (Option.map Context.noteEnd) hreport

/-- A run that fails in a call has taken the call off the count; a call at the limit has no effect;
and a session goes on with no call under way. -/
theorem callDepth_balanced_selfCalling :
    (∃ report,
      selfCalling.runRange 2 (⟨[], []⟩ : Console.Buffered) .silent #[callOf ⟨3, 0⟩] ⟨0, 1⟩ =
        some report ∧
      report.outcome = .failed ⟨.evaluation (.callDepthExceeded 1 "f"), ⟨1, 5⟩⟩ ∧
      report.context.depth = 0) ∧
    (Statement.invoke "f" ⟨1, 5⟩).run
        ({ selfCalling with depth := 1 }.world (⟨[], []⟩ : Console.Buffered) .silent) =
      .error (.error ⟨.evaluation (.callDepthExceeded 1 "f"), ⟨1, 5⟩⟩)
        ({ selfCalling with depth := 1 }.world ⟨[], []⟩ .silent) ∧
    ((Context.fresh 1).assign "x" (.int 1)).depth = 0 := by
  obtain ⟨-, hcall, hruns, hsession⟩ := callDepth_balanced Console.Buffered
  refine ⟨?_, ?_, ?_⟩
  · obtain ⟨report, hreport, houtcome⟩ := runRange_selfCalling
    exact ⟨report, hreport, houtcome, (hruns 2 _ _ _ _).1 _ _ hreport⟩
  · exact (hcall "f" ⟨1, 5⟩ _ _ (FunctionTable.get?_define_self _ _ _ _)).2.1 (Nat.le_refl 1)
  · exact hsession 1 _ (.single ⟨0, .set "x" (.int 1), rfl⟩)

end TokenScript
