import TokenScript.Proofs.CallDepth
import TokenScript.Proofs.Exchanges
import TokenScript.Proofs.Frames
import TokenScript.Proofs.Relocation.Joined

/-!
# Errors that end a run

Most failures do not end a run: a failure of evaluation is told to the reader of the output, and the
statement that met it goes on.  What ends a run is a statement whose form is wrong, a block without
an end, a console that fails, and a call that is one too many.

Each step of a run makes known exchanges with the console: a line for every failure that it meets,
and then what the statement says of its own.  So the console fails a run just if it fails one of
these.  The steps of `for` loops that pass over a bound worth `nothing` are the exception: they meet
a failure and say nothing.

* `Machine.failures`, `Machine.said`: what the next step of a machine meets and says.
* `Machine.passesOver`: the next step keeps a failure to itself.
* `Machine.heard_step`: the exchanges of a step are these.
* `Machine.Overcalls`: the next step is a call that is one too many.
* `Machine.Takes.escapes`: how a step fails.
* `errors_that_escape`: the errors that end a run.
-/

namespace TokenScript

variable {σ : Type}

/-! ## What steps say -/

/-- The console after a step. -/
def Status.console : Status σ → σ
  | .running machine => machine.world.console
  | .halted _ final => final.console

@[simp] theorem World.console_unwind (world : World σ) (frames : List Frame) :
    (world.unwind frames).console = world.console :=
  world.apply_unwind (fun _ => rfl) frames

namespace Machine

/-- The failures that the next step meets. -/
def failures (machine : Machine σ) : List Failure :=
  match machine.frames with
  | .block code cursor stop :: _ =>
    if cursor < stop ∧ cursor < code.size then Statement.failures code cursor machine.world else []
  | .retest code condition _ _ :: _ =>
    Expression.failuresAt code condition machine.world.context.store
  | _ => []

/-- What the statement of the next step says of its own. -/
def utterance (machine : Machine σ) : List Console.Exchange :=
  match machine.frames with
  | .block code cursor stop :: _ =>
    if cursor < stop ∧ cursor < code.size then Statement.utterance code cursor machine.world else []
  | _ => []

/-- Whether the next step is a `for` that passes over a bound in silence. -/
def passesOver (machine : Machine σ) : Bool :=
  match machine.frames with
  | .block code cursor stop :: _ =>
    if cursor < stop ∧ cursor < code.size then
      Statement.passesOver code cursor machine.world else false
  | _ => false

/-- All that the next step says: a line for every failure that is not passed over, and what its
statement says. -/
def said (machine : Machine σ) : List Console.Exchange :=
  (if machine.passesOver then [] else machine.failures).map Failure.told ++ machine.utterance

/-- A step that passes over a bound takes up a `for`.  The last bound that is evaluated is worth
`nothing`, and this is the one failure. -/
theorem exists_bound_of_passesOver {machine : Machine σ} (h : machine.passesOver = true) :
    ∃ code cursor stop rest, machine.frames = .block code cursor stop :: rest ∧
      (∃ t, code.tokens[cursor]? = some t ∧ t.kind = .keyword .forLoop) ∧
      Expression.evaluateFrom code.tokens
        (Statement.lastBound code cursor machine.world.context.store)
        machine.world.context.store = .ok .nothing ∧
      ∃ span, machine.failures = [⟨.boundNotInteger .nothing, span⟩] := by
  unfold passesOver at h
  unfold failures
  split at h
  · next code cursor stop rest hframes =>
    split at h
    · next hinside =>
      simp only [hframes, if_pos hinside]
      exact ⟨code, cursor, stop, rest, rfl, Statement.exists_failures_of_passesOver h⟩
    · cases h
  · cases h

/-- A step that passes over a bound says nothing. -/
theorem said_of_passesOver {machine : Machine σ} (h : machine.passesOver = true) :
    machine.said = [] := by
  have hutterance : machine.utterance = [] := by
    unfold passesOver at h
    unfold utterance
    split at h
    · next hframes =>
      split at h
      · next hinside =>
        simp only [if_pos hinside]
        exact Statement.utterance_of_passesOver h
      · cases h
    · cases h
  rw [said, if_pos h, hutterance]
  rfl

theorem said_of_not_passesOver {machine : Machine σ} (h : machine.passesOver = false) :
    machine.said = machine.failures.map Failure.told ++ machine.utterance := by
  simp [said, h]

theorem console_follow (code : Code) (stop : Nat) (flow : Flow) (rest : List Frame)
    (world : World σ) :
    (follow code stop flow rest world).console = world.console := by
  cases flow with
  | exit => exact World.console_unwind world rest
  | _ => rfl

theorem exists_follow_running {flow : Flow} (h : flow ≠ .exit) (code : Code) (stop : Nat)
    (rest : List Frame) (world : World σ) :
    ∃ next, follow code stop flow rest world = .running next := by
  cases flow with
  | exit => exact absurd rfl h
  | _ => exact ⟨_, rfl⟩

variable [Console σ]

/-- A step with these failures and exchanges leads to the status. -/
structure Heard (world : World σ) (failures : List Failure) (said : List Console.Exchange)
    (status : Status σ) : Prop where
  console : status.console = (Console.exchanges world.console said).2
  /-- If the console fails an exchange, that ends the run. -/
  failed : ∀ reason, (Console.exchanges world.console said).1 = some reason →
    ∃ final, status = .halted (.failed ⟨.console reason, .nowhere⟩) final
  /-- Otherwise the console is not to blame for anything. -/
  own : (Console.exchanges world.console said).1 = none →
    ∀ e final, status = .halted (.failed e) final → e.kind ≠ .console
  /-- A failure of evaluation does not end the run. -/
  goesOn : (Console.exchanges world.console said).1 = none → failures ≠ [] →
    ∃ next, status = .running next

namespace Heard

variable {world final : World σ} {found : List Failure} {said : List Console.Exchange}
  {abort : Abort}

/-- A step that ends the run without failure, and without a word. -/
theorem of_done (signal : Signal) (hconsole : final.console = world.console) :
    Heard world [] [] (.halted (.done signal) final) where
  console := hconsole
  failed := nofun
  own := fun _ _ _ => nofun
  goesOn := fun _ hne => absurd rfl hne

/-- A step that goes on. -/
theorem of_running {next : Machine σ}
    (hsaid : Console.exchanges world.console said = (none, next.world.console)) :
    Heard world found said (.running next) where
  console := by rw [hsaid]; rfl
  failed := by rw [hsaid]; exact nofun
  own := fun _ _ _ => nofun
  goesOn := fun _ _ => ⟨next, rfl⟩

/-- A step that the console fails. -/
theorem of_unheard (h : Unheard world said abort final) (rest : List Frame) :
    Heard world found said (.halted abort.outcome (final.unwind rest)) := by
  obtain ⟨reason, rfl, hsaid⟩ := h
  refine ⟨?_, ?_, ?_, ?_⟩
  · rw [hsaid]
    exact World.console_unwind final rest
  · rw [hsaid]
    rintro _ ⟨⟩
    exact ⟨_, rfl⟩
  · rw [hsaid]
    exact nofun
  · rw [hsaid]
    exact nofun

/-- A step that is abandoned in silence. -/
theorem of_own (hown : abort.Own) (hconsole : final.console = world.console) (rest : List Frame) :
    Heard world [] [] (.halted abort.outcome (final.unwind rest)) where
  console := (World.console_unwind final rest).trans hconsole
  failed := nofun
  own := by
    intro _ e last hstatus
    obtain ⟨houtcome, -⟩ := Status.halted.inj hstatus
    cases abort with
    | error d =>
      obtain rfl := Outcome.failed.inj houtcome
      exact hown
    | fault => cases houtcome
  goesOn := fun _ hne => absurd rfl hne

end Heard

/-- A step in which a statement is executed. -/
theorem heard_statement {code : Code} {cursor stop : Nat}
    (hinside : cursor < stop ∧ cursor < code.size) (rest : List Frame) (world : World σ) :
    Heard world (Statement.failures code cursor world) (Statement.said code cursor world)
      (step ⟨.block code cursor stop :: rest, world⟩) := by
  have htells : Tells world (Statement.execute code cursor) (Statement.failures code cursor world)
      (Statement.said code cursor world) _ := tells_execute hinside.2
  rw [step_block hinside]
  unfold Tells at htells
  revert htells
  cases (Statement.execute code cursor).run world with
  | ok flow final =>
    rintro ⟨hsaid, hexit⟩
    refine ⟨?_, ?_, ?_, ?_⟩
    · rw [hsaid]
      exact console_follow code stop flow rest final
    · rw [hsaid]
      exact nofun
    · intro _ e last hstatus
      cases flow <;> cases hstatus
    · intro _ hne
      exact exists_follow_running (fun heq => hne (hexit heq)) code stop rest final
  | error abort final =>
    rintro (hunheard | ⟨⟨hfailures, hnil⟩, hown, hconsole⟩)
    · exact Heard.of_unheard hunheard rest
    · rw [hnil, hfailures]
      exact Heard.of_own hown hconsole rest

/-- What a step of a machine says. -/
theorem heard_step (machine : Machine σ) :
    Heard machine.world machine.failures machine.said machine.step := by
  obtain ⟨frames, world⟩ := machine
  cases frames with
  | nil => exact Heard.of_done .next rfl
  | cons frame rest =>
    cases frame with
    | call => exact Heard.of_running rfl
    | count code name first last next loop =>
      simp only [step]
      split <;> exact Heard.of_running rfl
    | retest code condition loop rounds =>
      have hsaid : said ⟨.retest code condition loop rounds :: rest, world⟩ =
          (Expression.failuresAt code condition world.context.store).map Failure.told :=
        List.append_nil _
      have hspeaks : Speaks world (Action.evaluate code condition) _ _ :=
        speaks_evaluate condition rfl
      rw [hsaid]
      simp only [step]
      unfold Speaks at hspeaks
      revert hspeaks
      cases (Action.evaluate code condition).run world with
      | error abort final => exact fun hunheard => Heard.of_unheard hunheard rest
      | ok value final =>
        rintro ⟨hspoken, -⟩
        dsimp only
        split <;> exact Heard.of_running hspoken
    | block code cursor stop =>
      by_cases hinside : cursor < stop ∧ cursor < code.size
      · simp only [said, failures, passesOver, utterance, if_pos hinside]
        exact heard_statement hinside rest world
      · simp only [said, failures, passesOver, utterance, if_neg hinside, step]
        exact Heard.of_running rfl

/-! ## How steps fail -/

/-- The next step is a call of a function that has a body, while as many calls are under way as the
limit allows; the error says so, names the function, and stands at the place of the call. -/
def Overcalls (limit : Nat) (e : Error) (machine : Machine σ) : Prop :=
  ∃ code cursor stop rest name body,
    machine.frames = .block code cursor stop :: rest ∧ code.call? cursor = some (name, e.span) ∧
    machine.world.context.functions.get? name = some body ∧ machine.world.context.depth = limit ∧
    e.cause = .evaluation (.callDepthExceeded limit name)

/-- A step fails because of the form of a statement, a block, the console, or a call. -/
theorem Takes.escapes {limit : Nat} {machine : Machine σ} {e : Error} {final : World σ}
    (h : Takes machine (.halted (.failed e) final)) (hbounded : machine.Bounded limit) :
    e.kind = .structural ∨ e.kind = .block ∨ e.kind = .console ∨
      e.kind = .evaluation ∧ machine.Overcalls limit e := by
  generalize hstatus : Status.halted (Outcome.failed e) final = status at h
  cases h with
  | finished | exited => cases hstatus
  | returned | worked | called => cases hstatus
  | @abandoned frame rest code world last final' abort hframe hdeeds hhalts =>
    obtain ⟨houtcome, -⟩ := Status.halted.inj hstatus
    cases hhalts with
    | form cause span =>
      obtain rfl := Outcome.failed.inj houtcome
      exact Or.inl rfl
    | block hclose =>
      obtain rfl := Outcome.failed.inj houtcome
      exact Or.inr (Or.inl (BlockPolicy.kind_of_close hclose))
    | read | write =>
      obtain rfl := Outcome.failed.inj houtcome
      exact Or.inr (Or.inr (Or.inl rfl))
    | fault => cases houtcome
  | @refused code body cursor stop rest world name span hcall hget hlimit =>
    obtain ⟨houtcome, -⟩ := Status.halted.inj hstatus
    obtain rfl := Outcome.failed.inj houtcome
    have hlimits : world.context.callLimit = limit := hbounded.callLimit
    have hdepth : world.context.depth = limit :=
      Nat.le_antisymm hbounded.depth_le (hlimits ▸ hlimit)
    refine Or.inr
      (Or.inr (Or.inr ⟨rfl, code, cursor, stop, rest, name, body, rfl, hcall, hget, hdepth, ?_⟩))
    rw [hlimits]

/-- In a world that scans for every close, no step looks beyond the end of the code. -/
theorem Takes.ne_fault {machine : Machine σ} {outcome : Outcome} {final : World σ}
    (h : Takes machine (.halted outcome final)) (hscans : machine.world.closes = none) :
    outcome ≠ .fault := by
  cases h with
  | finished | exited | refused => exact nofun
  | abandoned hframe hdeeds hhalts =>
    cases hhalts with
    | fault hremembers => exact absurd (hdeeds.scans hscans) hremembers
    | form | block | read | write => exact nofun

theorem scans_of_reaches {machine later : Machine σ} (h : Reaches machine later)
    (hscans : machine.world.closes = none) : later.world.closes = none := by
  refine h.invariant (I := fun machine => machine.world.closes = none) hscans ?_
  intro now next hnow htakes
  cases htakes with
  | returned | called => exact hnow
  | worked code extra hframe hdeeds hextra => exact hdeeds.scans hnow

/-- A run in a world that scans for every close never looks beyond the end of the code. -/
theorem ne_fault_of_run {machine : Machine σ} (hscans : machine.world.closes = none) {fuel : Nat}
    {outcome : Outcome} {final : World σ} (h : run fuel machine = some (outcome, final)) :
    outcome ≠ .fault := by
  obtain ⟨last, hreaches, hstep⟩ := exists_reaches_of_run h
  have htakes := takes_step last
  rw [hstep] at htakes
  exact htakes.ne_fault (scans_of_reaches hreaches hscans)

/-- A run fails because of the console just if the console fails an exchange. -/
theorem console_iff_of_run {machine : Machine σ} {fuel : Nat} {outcome : Outcome} {final : World σ}
    (h : run fuel machine = some (outcome, final)) :
    (∃ e, outcome = .failed e ∧ e.kind = .console) ↔
      ∃ later, Reaches machine later ∧
        (Console.exchanges later.world.console later.said).1 ≠ none := by
  constructor
  · rintro ⟨e, rfl, hkind⟩
    obtain ⟨last, hreaches, hstep⟩ := exists_reaches_of_run h
    refine ⟨last, hreaches, fun hnone => ?_⟩
    exact (heard_step last).own hnone e final hstep hkind
  · rintro ⟨later, hreaches, hsome⟩
    obtain ⟨reason, hreason⟩ := Option.ne_none_iff_exists'.1 hsome
    obtain ⟨last, hstep⟩ := (heard_step later).failed reason hreason
    obtain ⟨steps, hsteps⟩ := hreaches.exists_run_eq
    -- the run comes by the machine whose next step fails, and has only one end
    have hlater : run (steps + (fuel + 1)) machine =
        some (.failed ⟨.console reason, .nowhere⟩, last) := by
      rw [hsteps, run, hstep]
    have hmore := run_mono (show fuel ≤ steps + (fuel + 1) by omega) h
    rw [hlater] at hmore
    obtain ⟨rfl, -⟩ := Prod.mk.inj (Option.some.inj hmore)
    exact ⟨_, rfl, rfl⟩

end Machine

/-! ## Runs -/

namespace Context

/-- The machine that runs a program. -/
def machine (context : Context) (console : σ) (journal : Journal) (tokens : Array Token) :
    Machine σ :=
  .start (.program tokens) ⟨0, tokens.size⟩
    (context.world console (journal.note (.runStarted tokens.size)))

variable [Console σ] {context : Context} {console : σ} {journal : Journal} {tokens : Array Token}
  {fuel : Nat} {report : Report σ}

theorem exists_run_machine (h : context.runTokens fuel console journal tokens = some report) :
    ∃ final, (context.machine console journal tokens).run fuel = some (report.outcome, final) := by
  rw [runTokens, runRange, finish] at h
  obtain ⟨plain, hplain, rfl⟩ := Option.map_eq_some_iff.1 h
  obtain ⟨⟨outcome, final⟩, hrun, rfl⟩ := Option.map_eq_some_iff.1 hplain
  rw [outcome_noteEnd]
  exact ⟨final, hrun⟩

/-- No run looks beyond the end of the code. -/
theorem ne_fault_of_runTokens (h : context.runTokens fuel console journal tokens = some report) :
    report.outcome ≠ .fault := by
  have hshown := runTokens_shown fuel context console journal tokens
  rw [h, Option.map_some, eq_comm] at hshown
  obtain ⟨⟨outcome, final⟩, hrun, heq⟩ := Option.map_eq_some_iff.1 hshown
  obtain ⟨houtcome, -⟩ := Prod.mk.inj heq
  rw [← houtcome]
  exact Machine.ne_fault_of_run rfl hrun

/-- How a run fails. -/
theorem escapes_of_runTokens (hdepth : context.depth ≤ context.callLimit)
    (h : context.runTokens fuel console journal tokens = some report) {e : Error}
    (he : report.outcome = .failed e) :
    e.kind = .structural ∨ e.kind = .block ∨ e.kind = .console ∨
      e.kind = .evaluation ∧
      ∃ later, Machine.Reaches (context.machine console journal tokens) later ∧
        later.Overcalls context.callLimit e := by
  obtain ⟨final, hrun⟩ := exists_run_machine h
  obtain ⟨last, hreaches, hstep⟩ := Machine.exists_reaches_of_run hrun
  have hstart : (context.machine console journal tokens).Bounded context.callLimit := ⟨rfl, hdepth⟩
  have htakes := Machine.takes_step last
  rw [hstep, he] at htakes
  rcases htakes.escapes (hstart.reaches hreaches) with hkind | hkind | hkind | ⟨hkind, hcalls⟩
  · exact Or.inl hkind
  · exact Or.inr (Or.inl hkind)
  · exact Or.inr (Or.inr (Or.inl hkind))
  · exact Or.inr (Or.inr (Or.inr ⟨hkind, last, hreaches, hcalls⟩))

end Context

/-- **Only fatal errors escape, and all others are told but one.**  Take a context in which no more
calls are under way than the limit allows, a console and a program.

* A run of the program never ends with a lexical error, nor with a fault.  If it ends with an error
  of evaluation, this is the refusal of a call that was made when as many calls were under way as
  the limit allows.  It ends with an error of the console just if the console failed one of the
  exchanges of the run; a console of given lines never does.
* At each moment of the run, unless a bound is passed over, the next step makes these exchanges and
  no others: one line for each failure of evaluation that it meets, in order, and then the line or
  the prompt of its statement.  If none of them fails and there was a failure of evaluation, the run
  goes on; and if one of them fails, the run ends with that error of the console.
* A bound is passed over just where a `for` comes to a bound that is worth `nothing` without having
  failed.  This is one failure, since the bound is no integer; but the step says nothing, and the
  run goes on. -/
theorem errors_that_escape {σ : Type} [Console σ] (context : Context)
    (hdepth : context.depth ≤ context.callLimit) (console : σ) (journal : Journal)
    (tokens : Array Token) :
    (∀ fuel report, context.runTokens fuel console journal tokens = some report →
      report.outcome ≠ .fault ∧
      (∀ e, report.outcome = .failed e →
        e.kind ∈ [ErrorKind.structural, .block, .console, .evaluation] ∧
        (e.kind = .evaluation →
          ∃ later, Machine.Reaches (context.machine console journal tokens) later ∧
            later.Overcalls context.callLimit e)) ∧
      ((∃ e, report.outcome = .failed e ∧ e.kind = .console) ↔
        ∃ later, Machine.Reaches (context.machine console journal tokens) later ∧
          later.passesOver = false ∧
          (Console.exchanges later.world.console
            (later.failures.map Failure.told ++ later.utterance)).1 ≠ none)) ∧
    (∀ later, Machine.Reaches (context.machine console journal tokens) later →
      (later.passesOver = false →
        ∀ answer after, Console.exchanges later.world.console
            (later.failures.map Failure.told ++ later.utterance) = (answer, after) →
          later.step.console = after ∧
          (answer = none → later.failures ≠ [] → ∃ next, later.step = .running next) ∧
          ∀ reason, answer = some reason →
            ∃ final, later.step = .halted (.failed ⟨.console reason, .nowhere⟩) final) ∧
      (later.passesOver = true →
        (∃ code cursor stop rest, later.frames = .block code cursor stop :: rest ∧
          (∃ t, code.tokens[cursor]? = some t ∧ t.kind = .keyword .forLoop) ∧
          Expression.evaluateFrom code.tokens
            (Statement.lastBound code cursor later.world.context.store)
            later.world.context.store = .ok .nothing ∧
          ∃ span, later.failures = [⟨.boundNotInteger .nothing, span⟩]) ∧
        later.step.console = later.world.console ∧ ∃ next, later.step = .running next)) ∧
    ∀ (lines : Console.Buffered) fuel report,
      context.runTokens fuel lines journal tokens = some report →
      ∀ e, report.outcome = .failed e → e.kind ≠ .console := by
  refine ⟨fun fuel report hrun => ⟨Context.ne_fault_of_runTokens hrun, fun e he => ?_, ?_⟩,
    fun later _ => ⟨?_, ?_⟩, ?_⟩
  · rcases Context.escapes_of_runTokens hdepth hrun he with hkind | hkind | hkind | ⟨hkind, hcalls⟩
    · simp [hkind]
    · simp [hkind]
    · simp [hkind]
    · exact ⟨by simp [hkind], fun _ => hcalls⟩
  · obtain ⟨final, hmachine⟩ := Context.exists_run_machine hrun
    refine (Machine.console_iff_of_run hmachine).trans
      (exists_congr fun later => and_congr_right fun _ => ?_)
    cases hpasses : later.passesOver with
    | true => simp [Machine.said_of_passesOver hpasses, Console.exchanges]
    | false => simp [Machine.said_of_not_passesOver hpasses]
  · intro hpasses answer after hanswer
    have hheard := later.heard_step
    rw [← Machine.said_of_not_passesOver hpasses] at hanswer
    refine ⟨?_, fun hnone => ?_, fun reason hreason => ?_⟩
    · rw [hheard.console, hanswer]
    · exact hheard.goesOn (by rw [hanswer, hnone])
    · exact hheard.failed reason (by rw [hanswer, hreason])
  · intro hpasses
    have hbound := Machine.exists_bound_of_passesOver hpasses
    have hheard := later.heard_step
    rw [Machine.said_of_passesOver hpasses] at hheard
    refine ⟨hbound, hheard.console, hheard.goesOn rfl ?_⟩
    obtain ⟨code, cursor, stop, rest, -, -, -, span, hfailures⟩ := hbound
    rw [hfailures]
    exact List.cons_ne_nil _ _
  · intro lines fuel report hrun e he hkind
    obtain ⟨final, hmachine⟩ := Context.exists_run_machine hrun
    obtain ⟨later, -, hfails⟩ := (Machine.console_iff_of_run hmachine).1 ⟨e, he, hkind⟩
    exact hfails (Console.exchanges_buffered later.world.console later.said)

/-- A console that has a line but cannot read it. -/
def unreadable : Console.Faulty Console.Buffered := ⟨⟨["7"], []⟩, some 0, none⟩

/-- A function that calls itself ends a run with its second call, and the limit was reached then.  A
console that cannot read ends a run of `input`, and there was an exchange that failed. -/
theorem errors_that_escape_selfCalling :
    (∃ report e,
      selfCalling.runTokens 2 (⟨[], []⟩ : Console.Buffered) .silent #[callOf ⟨3, 0⟩] = some report ∧
      report.outcome = .failed e ∧ e.kind = .evaluation ∧
      ∃ later, Machine.Reaches
          (selfCalling.machine (⟨[], []⟩ : Console.Buffered) .silent #[callOf ⟨3, 0⟩]) later ∧
        later.Overcalls 1 e) ∧
    ∃ report e,
      (Context.fresh 1).runTokens 1 unreadable .silent inputLine = some report ∧
      report.outcome = .failed e ∧ e.kind = .console ∧
      ∃ later, Machine.Reaches ((Context.fresh 1).machine unreadable .silent inputLine) later ∧
        later.passesOver = false ∧
        (Console.exchanges later.world.console
          (later.failures.map Failure.told ++ later.utterance)).1 ≠ none := by
  constructor
  · obtain ⟨report, hrun, houtcome⟩ := runTokens_selfCalling
    obtain ⟨hruns, -, -⟩ := errors_that_escape selfCalling (Nat.zero_le _)
      (⟨[], []⟩ : Console.Buffered) .silent #[callOf ⟨3, 0⟩]
    obtain ⟨-, hfailed, -⟩ := hruns 2 _ hrun
    exact ⟨report, _, hrun, houtcome, rfl, (hfailed _ houtcome).2 rfl⟩
  · obtain ⟨report, hrun, houtcome⟩ : ∃ report,
        (Context.fresh 1).runTokens 1 unreadable .silent inputLine = some report ∧
          report.outcome = .failed ⟨.console Console.Faulty.reason, .nowhere⟩ := ⟨_, rfl, rfl⟩
    obtain ⟨hruns, -, -⟩ := errors_that_escape (Context.fresh 1) (Nat.zero_le _) unreadable .silent
      inputLine
    obtain ⟨-, -, hconsole⟩ := hruns 1 _ hrun
    exact ⟨report, _, hrun, houtcome, rfl, hconsole.1 ⟨_, houtcome, rfl⟩⟩

/-- The tokens of `x =`, which gives `x` no value, and of a loop from `x` to `3` that prints its
counter. -/
def emptyBound : Code := .program
  #[⟨.identifier "x", "x", ⟨1, 0⟩⟩, ⟨.assignment, "=", ⟨1, 2⟩⟩, ⟨.newline, "\n", ⟨1, 3⟩⟩,
    ⟨.keyword .forLoop, "for", ⟨2, 0⟩⟩, ⟨.identifier "i", "i", ⟨2, 4⟩⟩,
    ⟨.keyword .inBound, "in", ⟨2, 6⟩⟩, ⟨.identifier "x", "x", ⟨2, 9⟩⟩,
    ⟨.keyword .toBound, "to", ⟨2, 11⟩⟩, ⟨.number (.int 3), "3", ⟨2, 14⟩⟩, ⟨.newline, "\n", ⟨2, 15⟩⟩,
    ⟨.keyword .print, "print", ⟨3, 0⟩⟩, ⟨.identifier "i", "i", ⟨3, 6⟩⟩, ⟨.newline, "\n", ⟨3, 7⟩⟩,
    ⟨.keyword .endBlock, "end", ⟨4, 0⟩⟩]

/-- The machine that has come to the loop. -/
def atEmptyBound : Machine Console.Buffered :=
  ⟨[.block emptyBound 3 14], ((Context.fresh 1).assign "x" .nothing).world ⟨[], []⟩ .silent⟩

/-- The run comes to the loop. -/
theorem reaches_atEmptyBound :
    ((Context.fresh 1).machine ⟨[], []⟩ .silent emptyBound.tokens).Reaches atEmptyBound := by
  have hvalue : Expression.evaluateFrom emptyBound.tokens 2 (Context.fresh 1).store =
      .ok .nothing := by decide +kernel
  have hend : Expression.endFrom emptyBound.tokens 2 = 2 := by decide +kernel
  have hassign : (Statement.execute emptyBound 0).run
      ((Context.fresh 1).world (⟨[], []⟩ : Console.Buffered) .silent) =
        .ok (.advance 2) atEmptyBound.world := by
    have hrun : (Action.evaluate emptyBound 2).run
        ((Context.fresh 1).world (⟨[], []⟩ : Console.Buffered) .silent) =
          .ok .nothing ((Context.fresh 1).world ⟨[], []⟩ .silent) := by
      rw [Action.evaluate, Action.run_get_bind]
      simp only [Context.world, hvalue]
      rfl
    refine (run_bind_of_ok hrun).trans ?_
    rw [hend]
    rfl
  have hfirst : Machine.Steps ((Context.fresh 1).machine ⟨[], []⟩ .silent emptyBound.tokens)
      ⟨[.block emptyBound 2 14], atEmptyBound.world⟩ := by
    change Machine.step ⟨[.block emptyBound 0 14],
      (Context.fresh 1).world (⟨[], []⟩ : Console.Buffered) .silent⟩ = _
    rw [Machine.step_block (by decide), hassign]
    rfl
  have hsecond : Machine.Steps ⟨[.block emptyBound 2 14], atEmptyBound.world⟩ atEmptyBound := rfl
  exact (Relation.ReflTransGen.single hfirst).tail hsecond

/-- The form of the loop is right. -/
theorem exists_forForm_atEmptyBound :
    ∃ final, (Statement.forForm emptyBound 3).run atEmptyBound.world =
      .ok ("i", 13, none, 13) final := by
  have hto : Expression.endFrom emptyBound.tokens 6 = 7 := by decide +kernel
  have hbody : Expression.endFrom emptyBound.tokens 8 = 9 := by decide +kernel
  have hclose : ∃ final, (Action.closeOf emptyBound 3 .loop).run atEmptyBound.world =
      .ok 13 final := by
    have hscan : BlockPolicy.close .loop emptyBound.tokens 3 = .ok ⟨13, .endBlock⟩ := by
      decide +kernel
    rw [Action.run_closeOf]
    simp [atEmptyBound, Context.world, hscan]
  obtain ⟨final, hclose⟩ := hclose
  refine ⟨final, ?_⟩
  unfold Statement.forForm
  simp only [hto, hbody]
  exact (run_bind_of_ok hclose).trans rfl

/-- Not every failure is told: behind `x =`, the first bound of a loop from `x` to `3` is no
integer, and not a line is written. -/
theorem failures_not_always_told :
    ¬∀ (tokens : Array Token) (later : Machine Console.Buffered),
      Machine.Reaches ((Context.fresh 1).machine ⟨[], []⟩ .silent tokens) later →
      ∀ answer after, Console.exchanges later.world.console
          (later.failures.map Failure.told ++ later.utterance) = (answer, after) →
        later.step.console = after := by
  intro hclaim
  have hpasses : atEmptyBound.passesOver = true := by
    obtain ⟨final, hform⟩ := exists_forForm_atEmptyBound
    change Statement.passesOver emptyBound 3 atEmptyBound.world = true
    have hvalue : Statement.forPassesOver emptyBound 3 atEmptyBound.world.context.store = true := by
      decide +kernel
    simp only [Statement.passesOver, hform, hvalue]
    rfl
  have hquiet : atEmptyBound.step.console = ⟨[], []⟩ := by
    rw [(Machine.heard_step atEmptyBound).console, Machine.said_of_passesOver hpasses]
    rfl
  obtain ⟨code, cursor, stop, rest, -, -, -, span, hfailures⟩ :=
    Machine.exists_bound_of_passesOver hpasses
  have htold := hclaim emptyBound.tokens atEmptyBound reaches_atEmptyBound _ _ rfl
  rw [hquiet, hfailures] at htold
  cases htold

end TokenScript
