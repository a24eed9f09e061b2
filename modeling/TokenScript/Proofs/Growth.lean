import TokenScript.Proofs.Escapes
import TokenScript.Proofs.Progress

/-!
# State only grows

Nothing that a script has done is undone.  A variable that has a value keeps having one, a function
that has a body keeps having one, the limit on calls stays, and the console only goes on from one
exchange to the next.  All of this is so because every deed of a statement is so; how a run ends
plays no part in it, since a run that ends early does nothing more than to take its calls off the
count.

On a console of given lines, going on means that the transcript gets longer, and that each prompt
takes the next line.  So the number of prompts says which lines are left, and which line is due.

* `Console.Later`: a console that another one becomes by exchanges.
* `World.Grows`: what every later world of a run has of an earlier one.
* `Machine.Takes.grows`: one step.
* `Console.Buffered.inputs_of_later`: the lines that are left.
* `Machine.answers`: the line that a prompt is answered with.
* `state_only_grows`: runs and calls.
-/

namespace TokenScript

variable {σ : Type}

/-! ## Consoles that go on -/

namespace Console

variable [Console σ]

/-- An exchange leads from one console to another, whether it fails or not. -/
def Talks (console after : σ) : Prop := ∃ said, (exchange console said).2 = after

/-- The second console is what exchanges make of the first. -/
abbrev Later : σ → σ → Prop := Relation.ReflTransGen Talks

theorem talks_of_read {prompt : String} {console after : σ} {answer : Except String (Option String)}
    (h : readLine prompt console = (answer, after)) : Talks console after := by
  refine ⟨.prompt prompt, ?_⟩
  cases answer <;> simp only [exchange, h]

theorem talks_of_write {line : String} {console after : σ} {answer : Except String Unit}
    (h : writeLine line console = (answer, after)) : Talks console after := by
  refine ⟨.line line, ?_⟩
  cases answer <;> simp only [exchange, h]

end Console

/-! ## Worlds that grow -/

/-- What a later world of a run has of an earlier one. -/
structure World.Grows [Console σ] (world later : World σ) : Prop where
  console : Console.Later world.console later.console
  store : ∀ name, (world.context.store.get? name).isSome → (later.context.store.get? name).isSome
  functions : ∀ name,
    (world.context.functions.get? name).isSome → (later.context.functions.get? name).isSome
  callLimit : later.context.callLimit = world.context.callLimit

theorem Store.isSome_get?_assign {store : Store} {name other : String}
    (h : (store.get? other).isSome) (value : Value) :
    ((store.assign name value).get? other).isSome := by
  by_cases hname : name = other
  · subst hname
    simp
  · rwa [get?_assign_of_ne _ _ hname]

theorem FunctionTable.isSome_get?_define {table : FunctionTable} {name other : String}
    (h : (table.get? other).isSome) (body : Array Token) (held : List Nat) :
    ((table.define name body held).get? other).isSome := by
  by_cases hname : name = other
  · subst hname
    simp
  · rwa [get?_define_of_ne _ _ _ hname]

/-- The world after a step. -/
def Status.world : Status σ → World σ
  | .running machine => machine.world
  | .halted _ final => final

variable [Console σ]

namespace World.Grows

variable {world middle later : World σ}

/-- A world that differs in nothing but the calls under way and what a run keeps for itself. -/
theorem of_eq (hconsole : later.console = world.console)
    (hstore : later.context.store = world.context.store)
    (hfunctions : later.context.functions = world.context.functions)
    (hlimit : later.context.callLimit = world.context.callLimit) : world.Grows later where
  console := by
    rw [hconsole]
  store := by
    rw [hstore]
    exact fun _ => id
  functions := by
    rw [hfunctions]
    exact fun _ => id
  callLimit := hlimit

theorem refl (world : World σ) : world.Grows world := of_eq rfl rfl rfl rfl

theorem trans (h : world.Grows middle) (h' : middle.Grows later) : world.Grows later where
  console := h.console.trans h'.console
  store name hname := h'.store name (h.store name hname)
  functions name hname := h'.functions name (h.functions name hname)
  callLimit := h'.callLimit.trans h.callLimit

/-- Only the console has gone on. -/
theorem of_talks {console : σ} (h : Console.Talks world.console console) :
    world.Grows { world with console := console } :=
  { refl world with console := .single h }

/-- The calls of frames come to their end. -/
theorem unwind (h : world.Grows later) (frames : List Frame) :
    world.Grows (later.unwind frames) := by
  induction frames generalizing later with
  | nil => exact h
  | cons frame frames ih =>
    cases frame with
    | call => exact ih (h.trans (of_eq rfl rfl rfl rfl))
    | block | retest | count => exact ih h

end World.Grows

theorem Deed.grows {code : Code} {world later : World σ} (h : Deed code world later) :
    world.Grows later := by
  cases h with
  | note | remember => exact .of_eq rfl rfl rfl rfl
  | assign name value =>
    exact { World.Grows.refl world with
      store := fun _ hname => Store.isSome_get?_assign hname value }
  | define name start stop =>
    exact { World.Grows.refl world with
      functions := fun _ hname => FunctionTable.isSome_get?_define hname _ _ }
  | read hread => exact .of_talks (Console.talks_of_read hread)
  | write hwrite => exact .of_talks (Console.talks_of_write hwrite)

theorem Deeds.grows {code : Code} {world later : World σ} (h : Deeds code world later) :
    world.Grows later := by
  induction h with
  | refl => exact .refl world
  | tail _ hlast ih => exact ih.trans hlast.grows

theorem Halts.grows {code : Code} {world later : World σ} {abort : Abort}
    (h : Halts code world abort later) : world.Grows later := by
  cases h with
  | form | block | fault => exact .refl world
  | read hread => exact .of_talks (Console.talks_of_read hread)
  | write hwrite => exact .of_talks (Console.talks_of_write hwrite)

namespace Machine

variable {machine later : Machine σ}

/-- One step, whatever it leads to. -/
theorem Takes.grows {status : Status σ} (h : Takes machine status) :
    machine.world.Grows status.world := by
  cases h with
  | finished world => exact .refl world
  | returned | called => exact .of_eq rfl rfl rfl rfl
  | worked code extra hframe hdeeds hextra => exact hdeeds.grows
  | exited hframe hdeeds => exact hdeeds.grows.unwind _
  | abandoned hframe hdeeds hhalts => exact (hdeeds.grows.trans hhalts.grows).unwind _
  | refused => exact (World.Grows.refl _).unwind _

theorem Reaches.grows (h : Reaches machine later) : machine.world.Grows later.world := by
  induction h with
  | refl => exact .refl machine.world
  | @tail now next _ hlast ih =>
    have htakes := takes_step now
    rw [show now.step = .running next from hlast] at htakes
    exact ih.trans htakes.grows

/-- A whole run, whatever its outcome. -/
theorem grows_of_run {fuel : Nat} {outcome : Outcome} {final : World σ}
    (h : machine.run fuel = some (outcome, final)) : machine.world.Grows final := by
  obtain ⟨last, hreaches, hstep⟩ := exists_reaches_of_run h
  have htakes := takes_step last
  rw [hstep] at htakes
  exact hreaches.grows.trans htakes.grows

end Machine

/-! ## Consoles of given lines -/

namespace Console.Buffered

variable {old new : Buffered}

/-- An exchange with a console of given lines shows a line, or a prompt that takes the next line. -/
theorem talks_cases (h : Talks old new) :
    (∃ text, new = ⟨old.inputs, .line text :: old.transcript⟩) ∨
      ∃ text, new = ⟨old.inputs.tail, .prompt text :: old.transcript⟩ := by
  obtain ⟨inputs, transcript⟩ := old
  obtain ⟨said, rfl⟩ := h
  cases said with
  | line text => exact Or.inl ⟨text, rfl⟩
  | prompt text => cases inputs <;> exact Or.inr ⟨text, rfl⟩

/-- The transcript gets longer. -/
theorem suffix_of_later (h : Later old new) : old.transcript <:+ new.transcript := by
  induction h with
  | refl => exact List.suffix_refl _
  | tail _ hlast ih =>
    obtain ⟨text, rfl⟩ | ⟨text, rfl⟩ := talks_cases hlast <;>
      exact ih.trans (List.suffix_cons _ _)

theorem isPrefix_output (h : old.transcript <:+ new.transcript) : old.output <+: new.output := by
  obtain ⟨added, hadded⟩ := h
  rw [output, output, ← hadded, List.reverse_append, List.filterMap_append]
  exact List.prefix_append _ _

theorem isPrefix_prompts (h : old.transcript <:+ new.transcript) : old.prompts <+: new.prompts := by
  obtain ⟨added, hadded⟩ := h
  rw [prompts, prompts, ← hadded, List.reverse_append, List.filterMap_append]
  exact List.prefix_append _ _

theorem prompts_line (console : Buffered) (inputs : List String) (text : String) :
    (⟨inputs, .line text :: console.transcript⟩ : Buffered).prompts = console.prompts := by
  simp [prompts]

theorem prompts_prompt (console : Buffered) (inputs : List String) (text : String) :
    (⟨inputs, .prompt text :: console.transcript⟩ : Buffered).prompts =
      console.prompts ++ [text] := by
  simp [prompts]

/-- Each prompt has taken one line, as long as there were any. -/
theorem inputs_of_later (h : Later old new) :
    new.inputs = old.inputs.drop (new.prompts.length - old.prompts.length) := by
  induction h with
  | refl => simp
  | @tail now next hlater hlast ih =>
    have hle := (isPrefix_prompts (suffix_of_later hlater)).length_le
    obtain ⟨text, rfl⟩ | ⟨text, rfl⟩ := talks_cases hlast
    · rw [prompts_line]
      exact ih
    · rw [prompts_prompt, List.length_append, List.length_singleton, Nat.sub_add_comm hle]
      show now.inputs.tail = _
      rw [ih, List.tail_drop]

/-- Lines leave the prompts as they are. -/
theorem prompts_exchanges {said : List Exchange} (h : ∀ e ∈ said, ∃ text, e = .line text)
    (console : Buffered) : (exchanges console said).2.prompts = console.prompts := by
  induction said generalizing console with
  | nil => rfl
  | cons e said ih =>
    obtain ⟨⟨text, rfl⟩, hrest⟩ := List.forall_mem_cons.1 h
    exact (ih hrest _).trans (prompts_line _ _ _)

end Console.Buffered

/-! ## Answers to prompts -/

open Console (Buffered)

/-- What the prompt of a variable says. -/
def promptFor (name : String) : String := "Enter value for " ++ name ++ ": "

namespace Statement

omit [Console σ] in
/-- Only `input` shows a prompt. -/
theorem utterance_cases (code : Code) (start : Nat) (world : World σ) :
    (∀ e ∈ utterance code start world, ∃ text, e = .line text) ∨
      ∃ t named, code.tokens[start]? = some t ∧ t.kind = .keyword .input ∧
        code.name? (start + 1) = some named := by
  unfold utterance
  cases ht : code.tokens[start]? with
  | none => exact Or.inl nofun
  | some t =>
    dsimp only
    split
    · left
      split <;> exact List.forall_mem_singleton.2 ⟨_, rfl⟩
    · next hkind =>
      cases hname : code.name? (start + 1) with
      | none => exact Or.inl nofun
      | some named => exact Or.inr ⟨t, named, rfl, hkind, rfl⟩
    · exact Or.inl nofun

/-- `input` gives its variable the next line, or an empty one after the last. -/
theorem run_input {code : Code} {start : Nat} {named : String × Span}
    (hname : code.name? (start + 1) = some named) (world : World Buffered) :
    ∃ final, (input code start).run world = .ok (.advance (start + 2)) final ∧
      final.console =
        ⟨world.console.inputs.tail, .prompt (promptFor named.1) :: world.console.transcript⟩ ∧
      final.context = world.context.assign named.1
        (.ofLine (world.console.inputs.head?.getD "")) := by
  obtain ⟨context, ⟨inputs, transcript⟩, held, closes, journal⟩ := world
  simp only [input, expectName_of_some hname, pure_bind]
  cases inputs <;> exact ⟨_, rfl, rfl, rfl⟩

end Statement

namespace Machine

/-- The next step shows no prompt; or it shows the prompt of a variable, and gives the variable the
line that is due.  The lines are those that there were when the console was `old`, and as many of
them are gone as prompts were shown since; after the last line there are only empty ones. -/
def Answers (old : Buffered) (machine : Machine Buffered) : Prop :=
  machine.step.world.console.prompts = machine.world.console.prompts ∨
    ∃ name next, machine.step = .running next ∧
      next.world.console.prompts = machine.world.console.prompts ++ [promptFor name] ∧
      next.world.context.store = machine.world.context.store.assign name
        (.ofLine
          ((old.inputs[machine.world.console.prompts.length - old.prompts.length]?).getD ""))

/-- A step whose statement shows no prompt. -/
theorem answers_of_lines {old : Buffered} {machine : Machine Buffered}
    (h : ∀ e ∈ machine.utterance, ∃ text, e = .line text) : machine.Answers old := by
  have hsaid : ∀ e ∈ machine.said, ∃ text, e = .line text := by
    intro e hmem
    rcases List.mem_append.1 hmem with htold | hutterance
    · obtain ⟨failure, -, rfl⟩ := List.mem_map.1 htold
      exact ⟨_, rfl⟩
    · exact h e hutterance
  have hconsole := machine.heard_step.console
  refine Or.inl ?_
  have hworld : machine.step.world.console = machine.step.console := by
    cases machine.step <;> rfl
  rw [hworld, hconsole]
  exact Buffered.prompts_exchanges hsaid machine.world.console

/-- A step that executes `input`. -/
theorem step_input {code : Code} {cursor stop : Nat} {t : Token} {named : String × Span}
    (hinside : cursor < stop ∧ cursor < code.size) (ht : code.tokens[cursor]? = some t)
    (hkind : t.kind = .keyword .input) (hname : code.name? (cursor + 1) = some named)
    (rest : List Frame) (world : World Buffered) :
    ∃ final, step ⟨.block code cursor stop :: rest, world⟩ =
        .running ⟨.block code (cursor + 2) stop :: rest, final⟩ ∧
      final.console =
        ⟨world.console.inputs.tail, .prompt (promptFor named.1) :: world.console.transcript⟩ ∧
      final.context = world.context.assign named.1
        (.ofLine (world.console.inputs.head?.getD "")) := by
  obtain ⟨final, hrun, hconsole, hcontext⟩ := Statement.run_input hname world
  refine ⟨final, ?_, hconsole, hcontext⟩
  rw [step_block hinside]
  simp only [Statement.execute, Action.tokenAt, ht, pure_bind, hkind, hrun]
  rfl

/-- The line that a prompt is answered with. -/
theorem answers {old : Buffered} {machine : Machine Buffered}
    (h : Console.Later old machine.world.console) : machine.Answers old := by
  obtain ⟨frames, world⟩ := machine
  cases frames with
  | nil => exact answers_of_lines nofun
  | cons frame rest =>
    cases frame with
    | call | retest | count => exact answers_of_lines nofun
    | block code cursor stop =>
      by_cases hinside : cursor < stop ∧ cursor < code.size
      · rcases Statement.utterance_cases code cursor world with hlines |
          ⟨t, named, ht, hkind, hname⟩
        · refine answers_of_lines ?_
          simpa only [utterance, if_pos hinside] using hlines
        · obtain ⟨final, hstep, hconsole, hcontext⟩ := step_input hinside ht hkind hname rest world
          refine Or.inr ⟨named.1, _, hstep, ?_, ?_⟩
          · show final.console.prompts = _
            rw [hconsole]
            exact Buffered.prompts_prompt _ _ _
          · show final.context.store = _
            rw [hcontext, Buffered.inputs_of_later h, List.head?_drop]
            rfl
      · refine answers_of_lines ?_
        simp [utterance, hinside]

end Machine

/-! ## Runs and calls -/

/-- What a later context and console have of an earlier context and a console of given lines. -/
structure Grown (context : Context) (old : Buffered) (later : Context) (new : Buffered) : Prop where
  output : old.output <+: new.output
  prompts : old.prompts <+: new.prompts
  /-- As many lines are gone as prompts were added, or all of them. -/
  inputs : new.inputs = old.inputs.drop (new.prompts.length - old.prompts.length)
  store : ∀ name, (context.store.get? name).isSome → (later.store.get? name).isSome
  functions : ∀ name, (context.functions.get? name).isSome → (later.functions.get? name).isSome
  callLimit : later.callLimit = context.callLimit

theorem World.Grows.grown {world later : World Buffered} (h : world.Grows later) :
    Grown world.context world.console later.context later.console where
  output := Buffered.isPrefix_output (Buffered.suffix_of_later h.console)
  prompts := Buffered.isPrefix_prompts (Buffered.suffix_of_later h.console)
  inputs := Buffered.inputs_of_later h.console
  store := h.store
  functions := h.functions
  callLimit := h.callLimit

/-- Everything has grown since `world` at each moment of the machine's run and at its end, and each
prompt is answered with the line that is due. -/
structure Machine.GrowsSince (world : World Buffered) (machine : Machine Buffered) : Prop where
  moment : ∀ later, Reaches machine later →
    Grown world.context world.console later.world.context later.world.console ∧
      later.Answers world.console
  ending : ∀ fuel outcome final, machine.run fuel = some (outcome, final) →
    Grown world.context world.console final.context final.console

theorem World.Grows.growsSince {world : World Buffered} {machine : Machine Buffered}
    (h : world.Grows machine.world) : machine.GrowsSince world where
  moment _ hreaches :=
    ⟨(h.trans hreaches.grows).grown, Machine.answers (h.trans hreaches.grows).console⟩
  ending _ _ _ hrun := (h.trans (Machine.grows_of_run hrun)).grown

/-- A call that starts changes nothing but the count of calls. -/
theorem World.grows_startCall (world : World σ) (name : String) (body : Code) :
    world.Grows ((world.startCall name).hold body) :=
  .of_eq rfl rfl rfl rfl

/-- **State only grows.**  Take a console of given lines.

* At each moment of a run of any range of any code, and at its end, whatever the outcome: the output
  and the prompts continue those from before; as many lines are gone as prompts were added, or all
  of them; each prompt was answered with the line of its number, or with an empty line after the
  last; and all variables and functions from before are still there, as is the limit on calls.
* The same goes for a call that starts, and a call that cannot start changes nothing.
* So it goes for what whole runs and calls report. -/
theorem state_only_grows :
    (∀ (code : Code) (extent : Extent) (world : World Buffered),
      (Machine.start code extent world).GrowsSince world) ∧
    (∀ (name : String) (span : Span) (world : World Buffered),
      (∀ abort final, (Statement.invoke name span).run world = .error abort final → final = world) ∧
      ∀ body entered, (Statement.invoke name span).run world = .ok body entered →
        (Machine.calling body entered).GrowsSince world) ∧
    ∀ (fuel : Nat) (context : Context) (lines : Buffered) (journal : Journal)
        (report : Report Buffered),
      (∀ tokens extent, context.runRange fuel lines journal tokens extent = some report →
        Grown context lines report.context report.console) ∧
      ∀ name span, context.runCall fuel lines journal name span = some report →
        Grown context lines report.context report.console := by
  have hcall : ∀ (name : String) (span : Span) (world : World Buffered),
      (∀ abort final, (Statement.invoke name span).run world = .error abort final → final = world) ∧
      ∀ body entered, (Statement.invoke name span).run world = .ok body entered →
        (Machine.calling body entered).GrowsSince world := by
    intro name span world
    constructor
    · intro abort final hinvoke
      rw [Statement.run_invoke] at hinvoke
      split at hinvoke
      · exact (EStateM.Result.error.inj hinvoke).2.symm
      · split at hinvoke
        · exact (EStateM.Result.error.inj hinvoke).2.symm
        · cases hinvoke
    · intro body entered hinvoke
      obtain ⟨-, rfl⟩ := Statement.of_run_invoke hinvoke
      exact (world.grows_startCall name body).growsSince
  refine ⟨fun code extent world => (World.Grows.refl world).growsSince, hcall, ?_⟩
  intro fuel context lines journal report
  constructor
  · intro tokens extent hrun
    obtain ⟨⟨outcome, final⟩, hmachine, rfl⟩ := Option.map_eq_some_iff.1 hrun
    exact (Machine.grows_of_run hmachine).grown
  · intro name span hrun
    obtain ⟨hrefused, hstarted⟩ := hcall name span (context.world lines journal)
    rw [Context.runCall] at hrun
    split at hrun
    · next abort final hinvoke =>
      obtain rfl := Option.some.inj hrun
      obtain rfl := hrefused abort final hinvoke
      exact (World.Grows.refl (context.world lines journal)).grown
    · next body entered hinvoke =>
      obtain ⟨⟨outcome, final⟩, hmachine, rfl⟩ := Option.map_eq_some_iff.1 hrun
      exact (hstarted body entered hinvoke).ending fuel outcome final hmachine

/-- The body `input x f`. -/
def askingBody : Code :=
  ⟨(Context.fresh 1).functions.nextAddress [], inputLine.push (callOf ⟨2, 2⟩)⟩

/-- A context in which `f` reads a line and then calls itself, and only one call may be under
way. -/
def selfAsking : Context := (Context.fresh 1).define "f" askingBody.tokens

theorem get?_selfAsking : selfAsking.functions.get? "f" = some askingBody :=
  FunctionTable.get?_define_self _ _ _ _

/-- A run that fails inside a call keeps the prompt that it showed, and the line that answered it is
gone.  A call at the limit changes nothing. -/
theorem state_only_grows_selfAsking :
    (∃ report,
      selfAsking.runRange 3 (⟨["7"], []⟩ : Buffered) .silent #[callOf ⟨3, 0⟩] ⟨0, 1⟩ = some report ∧
      report.outcome = .failed ⟨.evaluation (.callDepthExceeded 1 "f"), ⟨2, 2⟩⟩ ∧
      report.console = ⟨[], [.prompt "Enter value for x: "]⟩ ∧
      Grown selfAsking ⟨["7"], []⟩ report.context report.console) ∧
    ∃ final,
      (Statement.invoke "f" ⟨2, 2⟩).run
          ({ selfAsking with depth := 1 }.world (⟨["7"], []⟩ : Buffered) .silent) =
        .error (.error ⟨.evaluation (.callDepthExceeded 1 "f"), ⟨2, 2⟩⟩) final ∧
      final = { selfAsking with depth := 1 }.world ⟨["7"], []⟩ .silent := by
  obtain ⟨-, hcalls, hreports⟩ := state_only_grows
  constructor
  · have hshown :
        (selfAsking.runRange 3 (⟨["7"], []⟩ : Buffered) .silent #[callOf ⟨3, 0⟩] ⟨0, 1⟩).map
        (fun report => (report.outcome, report.console)) =
          some (.failed ⟨.evaluation (.callDepthExceeded 1 "f"), ⟨2, 2⟩⟩,
            ⟨[], [.prompt "Enter value for x: "]⟩) := by decide +kernel
    obtain ⟨report, hrun, heq⟩ := Option.map_eq_some_iff.1 hshown
    obtain ⟨houtcome, hconsole⟩ := Prod.mk.inj heq
    exact ⟨report, hrun, houtcome, hconsole, (hreports 3 selfAsking _ _ report).1 _ _ hrun⟩
  · have hinvoke : (Statement.invoke "f" ⟨2, 2⟩).run
          ({ selfAsking with depth := 1 }.world (⟨["7"], []⟩ : Buffered) .silent) =
        .error (.error ⟨.evaluation (.callDepthExceeded 1 "f"), ⟨2, 2⟩⟩)
          ({ selfAsking with depth := 1 }.world ⟨["7"], []⟩ .silent) := by
      rw [Statement.run_invoke_of_get? (by exact get?_selfAsking), if_pos (by decide)]
      rfl
    exact ⟨_, hinvoke, (hcalls "f" ⟨2, 2⟩ _).1 _ _ hinvoke⟩

end TokenScript
