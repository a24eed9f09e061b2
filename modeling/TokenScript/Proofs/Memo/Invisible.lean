import TokenScript.Interpreter
import TokenScript.Proofs.Statement.Stages

/-!
# The memory of closes is invisible

A script does the same in a world that remembers closes and in one that scans every time.  An action
is *blind* to the memory when, in two worlds that are alike, it returns the same and leaves worlds
that are alike.  Every statement is blind, so every step of the machine is, and so is every run: the
two runs take the same number of steps, and end in the same way.

* `Blind`: an action that cannot tell the two worlds apart.
* `blind_closeOf`: the one action that looks at the memory.
* `blind_execute`: every statement.
* `Machine.observe_run`: every run.
-/

namespace TokenScript

open TokenScript.Action

variable {σ α β : Type} {frames : List Frame}

/-- An action that cannot tell two worlds apart that are alike; `Q` is what it says of its result
and of the world it leaves. -/
def Blind (frames : List Frame) (x : Action σ α) (Q : α → World σ → Prop) : Prop :=
  Coupled (Alike frames) x x (fun u v a b => u = v ∧ Q u a ∧ Alike frames a b)
    (fun e d a b => e = d ∧ Alike frames a b)

/-- Nothing in particular is said of a result. -/
abbrev anything : α → World σ → Prop := fun _ _ => True

namespace Blind

theorem of_pure {u : α} {Q : α → World σ → Prop} (h : ∀ world, Q u world) :
    Blind frames (pure u) Q :=
  Coupled.of_pure fun a _ hab => ⟨rfl, h a, hab⟩

theorem of_throw {abort : Abort} {Q : α → World σ → Prop} : Blind frames (throw abort) Q :=
  Coupled.of_throw fun _ _ hab => ⟨rfl, hab⟩

/-- One action after another. -/
theorem bind {x : Action σ α} {f : α → Action σ β} {P : α → World σ → Prop}
    {Q : β → World σ → Prop} (hx : Blind frames x P)
    (hf : ∀ u world, P u world → Blind frames (f u) Q) : Blind frames (x >>= f) Q := by
  refine Coupled.bind hx fun u v => ?_
  rintro a b ⟨rfl, hP, hab⟩
  exact hf u a hP a b hab

/-- Less is said of the results. -/
theorem mono {x : Action σ α} {P Q : α → World σ → Prop} (hx : Blind frames x P)
    (h : ∀ u world, P u world → Q u world) : Blind frames x Q := by
  intro a b hab
  have hagree := hx a b hab
  revert hagree
  cases x.run a <;> cases x.run b
  · exact fun ⟨heq, hP, halike⟩ => ⟨heq, h _ _ hP, halike⟩
  · exact id
  · exact id
  · exact id

/-- An action that looks at the context only. -/
theorem bind_get {f : World σ → Action σ α} {Q : α → World σ → Prop}
    (hcontext : ∀ a b : World σ, a.context = b.context → f a = f b)
    (hf : ∀ world, Blind frames (f world) Q) : Blind frames (get >>= f) Q := by
  refine Coupled.bind_get fun a b hab => ?_
  rw [hcontext a b hab.context]
  rintro a' b' ⟨rfl, rfl⟩
  exact hf b' a' b' hab

/-- A change of the context that keeps the functions. -/
theorem of_changeContext {change : Context → Context}
    (h : ∀ context, (change context).functions = context.functions) :
    Blind (σ := σ) frames (changeContext change) anything := by
  refine Coupled.of_modify fun a b hab => ⟨rfl, trivial, ?_⟩
  exact
    { context := congrArg change hab.context
      console := hab.console
      held := hab.held
      journal := hab.journal
      scans := hab.scans
      memory := hab.memory.congr (h a.context) rfl rfl }

/-- Every event is noted in both worlds. -/
theorem of_note (event : Event) : Blind (σ := σ) frames (note event) anything := by
  refine Coupled.of_modify fun a b hab => ⟨rfl, trivial, ?_⟩
  refine
    { context := hab.context
      console := hab.console
      held := hab.held
      journal := ?_
      scans := hab.scans
      memory := hab.memory.congr rfl rfl rfl }
  change (a.journal.note event).withoutMatches = (b.journal.note event).withoutMatches
  cases hm : event.isMatch with
  | true =>
    rw [Journal.withoutMatches_note_of_match _ hm, Journal.withoutMatches_note_of_match _ hm,
      hab.journal]
  | false => rw [Journal.withoutMatches_note _ hm, Journal.withoutMatches_note _ hm, hab.journal]

end Blind

/-! ## Finding a close -/

/-- Looking a close up and scanning for it come to the same, if the policy is that of the opener. -/
theorem blind_closeOf {code : Code} {start : Nat} {policy : BlockPolicy}
    (hrun : code ∈ Frame.codes frames) (hpolicy : code.policyAt? start = some policy) :
    Blind (σ := σ) frames (closeOf code start policy) anything := by
  intro a b hab
  rw [run_closeOf, run_closeOf, hab.scans]
  cases hmemo : a.closes.bind (·[(code.address, start)]?) with
  | some index =>
    -- a close that is remembered is the one that the other world finds
    obtain ⟨memo, hcloses, hindex⟩ := Option.bind_eq_some_iff.1 hmemo
    obtain ⟨policy', found, hpolicy', hclose, rfl⟩ :=
      hab.memory.right memo hcloses code (Or.inl hrun) start index hindex
    obtain rfl : policy' = policy := Option.some.inj (hpolicy'.symm.trans hpolicy)
    simp only [Option.bind_none, hclose]
    refine ⟨rfl, trivial, ?_⟩
    exact
      { context := hab.context
        console := hab.console
        held := hab.held
        journal := by
          rw [Journal.withoutMatches_note_of_match _ rfl]
          exact hab.journal
        scans := rfl
        memory := hab.memory }
  | none =>
    cases hclose : policy.close code.tokens start with
    | error e => exact ⟨rfl, hab⟩
    | ok found =>
      refine ⟨rfl, trivial, ?_⟩
      exact
        { context := hab.context
          console := hab.console
          held := hab.held
          journal := by
            rw [Journal.withoutMatches_note_of_match _ rfl,
              Journal.withoutMatches_note_of_match _ rfl]
            exact hab.journal
          scans := rfl
          memory := hab.memory.insert hrun hpolicy hclose rfl rfl rfl }

/-! ## Talking to the console -/

section

variable [Console σ]

theorem blind_readLine (prompt : String) :
    Blind (σ := σ) frames (readLine prompt) anything := by
  intro a b hab
  rw [run_readLine, run_readLine, hab.console]
  have hset : ∀ console, Alike frames { a with console := console } { b with console := console } :=
    fun console =>
      ⟨hab.context, rfl, hab.held, hab.journal, hab.scans, hab.memory.congr rfl rfl rfl⟩
  rcases Console.readLine prompt b.console with ⟨_ | _, console⟩
  · exact ⟨rfl, hset console⟩
  · exact ⟨rfl, trivial, hset console⟩

theorem blind_writeLine (line : String) :
    Blind (σ := σ) frames (writeLine line) anything := by
  intro a b hab
  rw [run_writeLine, run_writeLine, hab.console]
  have hset : ∀ console, Alike frames { a with console := console } { b with console := console } :=
    fun console =>
      ⟨hab.context, rfl, hab.held, hab.journal, hab.scans, hab.memory.congr rfl rfl rfl⟩
  rcases Console.writeLine line b.console with ⟨_ | _, console⟩
  · exact ⟨rfl, hset console⟩
  · exact ⟨rfl, trivial, hset console⟩

theorem blind_report (failure : Failure) : Blind (σ := σ) frames (report failure) anything :=
  Blind.bind (Blind.of_note _) fun _ _ _ => blind_writeLine _

theorem blind_evaluate (code : Code) (start : Nat) :
    Blind (σ := σ) frames (evaluate code start) anything := by
  refine Blind.bind_get (fun a b hab => by simp only [hab]) fun world => ?_
  cases Expression.evaluateFrom code.tokens start world.context.store with
  | ok value => exact Blind.of_pure fun _ => trivial
  | error failure =>
    exact Blind.bind (blind_report failure) fun _ _ _ => Blind.of_pure fun _ => trivial

end

/-! ## Calls and definitions -/

/-- A body that is to be called next is in the table. -/
def Flow.Stored (flow : Flow) (world : World σ) : Prop :=
  match flow with
  | .call body _ => ∃ name, world.context.functions.get? name = some body
  | _ => True

theorem Flow.stored_of_plain {flow : Flow} (h : flow.Plain) (world : World σ) :
    flow.Stored world := by
  cases flow with
  | call body next => exact absurd rfl (h body next)
  | _ => trivial

theorem blind_invoke (name : String) (span : Span) :
    Blind (σ := σ) frames (Statement.invoke name span)
      fun body world => ∃ name, world.context.functions.get? name = some body := by
  intro a b hab
  rw [Statement.run_invoke, Statement.run_invoke, hab.context]
  cases hget : b.context.functions.get? name with
  | none => exact ⟨rfl, hab⟩
  | some body =>
    simp only
    split
    · exact ⟨rfl, hab⟩
    · refine ⟨rfl, ⟨name, hget⟩, ?_⟩
      exact
        { context := rfl
          console := hab.console
          held := hab.held
          journal := by
            rw [Journal.withoutMatches_note _ rfl, Journal.withoutMatches_note _ rfl, hab.journal]
          scans := hab.scans
          memory := hab.memory.congr (by rw [hab.context]) rfl rfl }

/-- Calling a body that was found in the table. -/
theorem blind_invoke_call (name : String) (span : Span) (next : Nat) :
    Blind (σ := σ) frames (do
      let body ← Statement.invoke name span
      pure (.call body next)) Flow.Stored := by
  refine Coupled.bind (blind_invoke name span) fun body _ => ?_
  rintro a b ⟨rfl, hstored, hab⟩
  exact ⟨rfl, hstored, hab⟩

/-- A body that is stored lies at the same address in both worlds, and all closes are forgotten. -/
theorem blind_store (name : String) (body : Array Token) :
    Blind (σ := σ) frames (do
      store name body
      forgetCloses) anything := by
  intro a b hab
  refine ⟨rfl, trivial, ?_⟩
  exact
    { context := by
        change a.context.define name body a.held = b.context.define name body b.held
        rw [hab.context, hab.held]
      console := hab.console
      held := hab.held
      journal := hab.journal
      scans := by
        change b.closes.map _ = none
        rw [hab.scans]
        rfl
      memory := hab.memory.define name body rfl rfl rfl }

/-! ## Every statement -/

section

variable {code : Code} {x : Routine α} {P : α → Prop} {site : Site}

/-- What is inspected looks the same in both worlds, whether closes are remembered or not. -/
theorem Inspects.blind (h : Inspects False code x P) (hrun : site.place code ∈ Frame.codes frames) :
    Blind frames (x site) fun u _ => P u := by
  induction h with
  | done hu => exact Blind.of_pure fun _ => hu
  | andThen _ _ ihx ihf => exact Blind.bind ihx fun u _ hu => ihf u hu
  | refused => exact Blind.of_throw
  | fault => exact Blind.of_throw
  | closeOf hpolicy => exact (blind_closeOf hrun hpolicy).mono fun _ _ _ => False.elim

theorem Acts.blind (h : Acts False code x P) : Blind frames (x site) fun u _ => P u := by
  induction h with
  | done hu => exact Blind.of_pure fun _ => hu
  | andThen _ _ ihx ihf => exact Blind.bind ihx fun u _ hu => ihf u hu
  | fault => exact Blind.of_throw
  | note => exact Blind.of_note _
  | assign => exact Blind.of_changeContext fun _ => rfl
  | define => exact Blind.bind (Blind.of_note _) fun _ _ _ => blind_store _ _
  | readLine prompt => exact blind_readLine prompt
  | writeLine line => exact blind_writeLine line
  | evaluate start => exact blind_evaluate _ start

theorem Staged.blind {start : Nat} {check : Routine Unit} {x : Routine Flow}
    (h : Staged False code start check x) (site : Site)
    (hrun : site.place code ∈ Frame.codes frames) :
    Blind frames (x site) Flow.Stored := by
  cases h with
  | plain hform hrest hown =>
    refine Blind.bind (hform.blind hrun) fun u _ hu =>
      (hrest u hu).blind.mono fun flow _ hflow => ?_
    exact Flow.stored_of_plain (hown u flow hu hflow).plain _
  | @call named _ next _ _ hunknown =>
    refine Blind.bind_get (fun a b hab => by simp only [hab]) fun world => ?_
    cases world.context.functions.get? named.1 with
    | none => exact Blind.bind hunknown.blind fun _ _ _ => Blind.of_pure fun _ => trivial
    | some _ => exact blind_invoke_call _ _ _

end

variable [Console σ]

/-- No statement can tell whether closes are remembered. -/
theorem blind_execute {code : Code} (hrun : code ∈ Frame.codes frames) (start : Nat) :
    Blind (σ := σ) frames (Statement.execute code start) Flow.Stored :=
  (staged_execute False.elim).blind ⟨code.address⟩ hrun

/-! ## The machine -/

/-- What can be seen of a world: all but the memory and the scans. -/
def World.observe (world : World σ) : Context × σ × Journal :=
  (world.context, world.console, world.journal.withoutMatches)

namespace Alike

omit [Console σ]

variable {world plain : World σ}

theorem observe_eq (h : Alike frames world plain) : world.observe = plain.observe := by
  rw [World.observe, World.observe, h.context, h.console, h.journal]

theorem replace {frame : Frame} {rest : List Frame} {code : Code}
    (h : Alike (frame :: rest) world plain) (hcode : frame.code? = some code) (extra : List Frame)
    (hextra : ∀ other ∈ extra, other.code? = some code) : Alike (extra ++ rest) world plain :=
  { h with memory := h.memory.replace hcode hextra }

theorem note (h : Alike frames world plain) {event : Event} (hevent : event.isMatch = false) :
    Alike frames (world.note event) (plain.note event) :=
  { h with
    journal := by
      change (world.journal.note event).withoutMatches = (plain.journal.note event).withoutMatches
      rw [Journal.withoutMatches_note _ hevent, Journal.withoutMatches_note _ hevent, h.journal]
    memory := h.memory.congr rfl rfl rfl }

theorem assign (h : Alike frames world plain) (name : String) (value : Value) :
    Alike frames (world.assign name value) (plain.assign name value) :=
  { h with
    context := congrArg (Context.assign · name value) h.context
    memory := h.memory.congr rfl rfl rfl }

theorem call {name : String} {body : Code} (h : Alike frames world plain)
    (hget : world.context.functions.get? name = some body) (start stop : Nat) :
    Alike (.block body start stop :: .call :: frames) (world.hold body) (plain.hold body) :=
  { h with
    held := congrArg (body.address :: ·) h.held
    memory := h.memory.call hget start stop }

theorem endCall (h : Alike (.call :: frames) world plain) :
    Alike frames world.endCall plain.endCall :=
  { h with
    context := congrArg (fun context => { context with depth := context.depth - 1 }) h.context
    held := congrArg List.tail h.held
    memory := h.memory.endCall }

end Alike

omit [Console σ] in
/-- What can be seen of a world when calls end. -/
theorem World.observe_unwind {world plain : World σ} (h : world.observe = plain.observe)
    (frames : List Frame) : (world.unwind frames).observe = (plain.unwind frames).observe := by
  induction frames generalizing world plain with
  | nil => exact h
  | cons frame rest ih =>
    cases frame with
    | call =>
      refine ih ?_
      simp only [World.observe, Prod.mk.injEq] at h
      simp only [World.observe, World.endCall, h.1, h.2.1, h.2.2]
    | block _ _ _ => exact ih h
    | retest _ _ _ _ => exact ih h
    | count _ _ _ _ _ _ => exact ih h

/-- Machines, or the worlds of machines that have halted, that differ in nothing that can be
seen. -/
def Status.Alike : Status σ → Status σ → Prop
  | .running machine, .running plain =>
    machine.frames = plain.frames ∧
      TokenScript.Alike machine.frames machine.world plain.world
  | .halted outcome world, .halted outcome' plain =>
    outcome = outcome' ∧ world.observe = plain.observe
  | .running _, .halted _ _ => False
  | .halted _ _, .running _ => False

omit [Console σ] in
/-- Both go on with the same frames, or both have halted in the same way. -/
theorem Status.Alike.cases {status other : Status σ} (h : status.Alike other) :
    (∃ frames world plain, status = .running ⟨frames, world⟩ ∧ other = .running ⟨frames, plain⟩ ∧
      TokenScript.Alike frames world plain) ∨
    ∃ outcome world plain, status = .halted outcome world ∧ other = .halted outcome plain ∧
      world.observe = plain.observe := by
  rcases status with ⟨frames, world⟩ | ⟨outcome, world⟩ <;>
    rcases other with ⟨frames', plain⟩ | ⟨outcome', plain⟩
  · obtain ⟨rfl, halike⟩ := h
    exact Or.inl ⟨frames, world, plain, rfl, rfl, halike⟩
  · exact False.elim h
  · exact False.elim h
  · obtain ⟨rfl, hobserve⟩ := h
    exact Or.inr ⟨outcome, world, plain, rfl, rfl, hobserve⟩

namespace Machine

variable {world plain : World σ}

omit [Console σ] in
/-- Going on after a statement. -/
theorem follow_alike {code : Code} {cursor stop : Nat} {rest : List Frame} {flow : Flow}
    (h : Alike (.block code cursor stop :: rest) world plain) (hstored : flow.Stored world) :
    (follow code stop flow rest world).Alike (follow code stop flow rest plain) := by
  have hone : ∀ frame : Frame, frame.code? = some code → Alike (frame :: rest) world plain := by
    intro frame hframe
    refine h.replace rfl [frame] ?_
    simpa using hframe
  have htwo : ∀ (frame : Frame) (next : Nat), frame.code? = some code →
      Alike (frame :: .block code next stop :: rest) world plain := by
    intro frame next hframe
    refine h.replace rfl [frame, .block code next stop] ?_
    simpa using ⟨hframe, rfl⟩
  cases flow with
  | advance next => exact ⟨rfl, hone _ rfl⟩
  | enter extent next => exact ⟨rfl, htwo _ _ rfl⟩
  | retest condition loop next => exact ⟨rfl, htwo _ _ rfl⟩
  | count name first last loop next => exact ⟨rfl, htwo _ _ rfl⟩
  | call body next =>
    obtain ⟨name, hget⟩ := hstored
    exact ⟨rfl, (hone (.block code next stop) rfl).call hget _ _⟩
  | exit => exact ⟨rfl, World.observe_unwind h.observe_eq rest⟩

/-- One step in a world that remembers closes and in one that does not. -/
theorem step_alike (h : Alike frames world plain) :
    (step ⟨frames, world⟩).Alike (step ⟨frames, plain⟩) := by
  cases frames with
  | nil => exact ⟨rfl, h.observe_eq⟩
  | cons frame rest =>
    cases frame with
    | call => exact ⟨rfl, h.endCall⟩
    | block code cursor stop =>
      unfold step
      dsimp only
      split
      · have hrun : code ∈ Frame.codes (.block code cursor stop :: rest) := List.mem_cons_self
        have hexecute := blind_execute hrun cursor world plain h
        revert hexecute
        cases (Statement.execute code cursor).run world <;>
          cases (Statement.execute code cursor).run plain <;> intro hexecute
        · obtain ⟨rfl, hstored, halike⟩ := hexecute
          exact follow_alike halike hstored
        · exact False.elim hexecute
        · exact False.elim hexecute
        · obtain ⟨rfl, halike⟩ := hexecute
          exact ⟨rfl, World.observe_unwind halike.observe_eq rest⟩
      · exact ⟨rfl, h.replace rfl [] (by simp)⟩
    | retest code condition loop rounds =>
      unfold step
      dsimp only
      have hevaluate := blind_evaluate code condition world plain h
      revert hevaluate
      cases (evaluate code condition).run world <;>
        cases (evaluate code condition).run plain <;> intro hevaluate
      · obtain ⟨rfl, -, halike⟩ := hevaluate
        dsimp only
        split
        · refine ⟨rfl, halike.replace rfl [blockFrame code loop.body, .retest code _ loop _] ?_⟩
          simp [blockFrame, Frame.code?]
        · exact ⟨rfl, (halike.note rfl).replace rfl _ elseFrames_code?⟩
      · exact False.elim hevaluate
      · exact False.elim hevaluate
      · obtain ⟨rfl, halike⟩ := hevaluate
        exact ⟨rfl, World.observe_unwind halike.observe_eq rest⟩
    | count code name first last next loop =>
      unfold step
      dsimp only
      split
      · refine ⟨rfl, (h.assign name _).replace rfl
          [blockFrame code loop.body, .count code name first last _ loop] ?_⟩
        simp [blockFrame, Frame.code?]
      · exact ⟨rfl, (h.note rfl).replace rfl _ elseFrames_code?⟩

/-- Runs in a world that remembers closes and in one that does not come to an end together, and then
nothing that can be seen tells them apart. -/
theorem observe_run (h : Alike frames world plain) (fuel : Nat) :
    (run fuel ⟨frames, world⟩).map (fun answer => (answer.1, answer.2.observe)) =
      (run fuel ⟨frames, plain⟩).map fun answer => (answer.1, answer.2.observe) := by
  induction fuel generalizing frames world plain with
  | zero => rfl
  | succ fuel ih =>
    rw [run, run]
    rcases (step_alike h).cases with ⟨_, _, _, hfirst, hsecond, halike⟩ |
      ⟨_, _, _, hfirst, hsecond, hobserve⟩
    · rw [hfirst, hsecond]
      exact ih halike
    · rw [hfirst, hsecond]
      simp only [Option.map_some, hobserve]

end Machine

/-! ## Whole runs -/

/-- A report without the events that tell of a scan. -/
def Report.withoutMatches (report : Report σ) : Report σ :=
  { report with journal := report.journal.withoutMatches }

namespace Context

omit [Console σ] in
/-- At the start nothing is remembered, and the program has an address of its own. -/
theorem alike_start (context : Context) (console : σ) (journal : Journal) (tokens : Array Token)
    (extent : Extent) :
    Alike [Machine.blockFrame (.program tokens) extent] (context.world console journal)
      { context.world console journal with closes := none } where
  context := rfl
  console := rfl
  held := rfl
  journal := rfl
  scans := rfl
  memory := by
    have hcases : ∀ code, Live [Machine.blockFrame (.program tokens) extent] context code →
        code = .program tokens ∨
          code.address ≠ 0 ∧ ∃ name, context.functions.get? name = some code := by
      rintro code (hmem | ⟨name, hget⟩)
      · exact Or.inl (List.mem_singleton.1 hmem)
      · exact Or.inr ⟨context.functions.aside name code hget, name, hget⟩
    refine ⟨(Pinned.cons_iff rfl).2 ⟨Or.inl rfl, trivial⟩, ?_, ?_⟩
    · intro code other hc ho haddress
      rcases hcases code hc with rfl | ⟨hne, name, hget⟩ <;>
        rcases hcases other ho with rfl | ⟨hne', name', hget'⟩
      · rfl
      · exact absurd haddress.symm hne'
      · exact absurd haddress hne
      · obtain rfl := context.functions.distinct name name' code other hget hget' haddress
        exact Option.some.inj (hget.symm.trans hget')
    · intro memo hmemo code hc start index hindex
      obtain rfl : ∅ = memo := Option.some.inj hmemo
      simp at hindex

/-- Runs the tokens with the indices of a range in a world that scans for every close. -/
def runRangeScanning (fuel : Nat) (context : Context) (console : σ) (journal : Journal)
    (tokens : Array Token) (extent : Extent) : Option (Report σ) :=
  finish fuel
    (.start (.program tokens) extent { context.world console journal with closes := none })

/-- **The memory of closes is invisible.**  For every number of steps, a run that remembers closes
and a run that scans for every close both come to an end or both do not, and what they leave behind
differs at most in the scans that the journals tell of.  This is so wherever the context places the
bodies that are stored, also if they are placed where others lay that are gone. -/
theorem runRange_eq_runRangeScanning (fuel : Nat) (context : Context) (console : σ)
    (journal : Journal) (tokens : Array Token) (extent : Extent) :
    (context.runRange fuel console journal tokens extent).map Report.withoutMatches =
      (context.runRangeScanning fuel console journal tokens extent).map Report.withoutMatches := by
  have hrun := Machine.observe_run (context.alike_start console journal tokens extent) fuel
  -- a report holds what can be seen of the world in which the run ended
  have hreport : ∀ answer : Option (Outcome × World σ),
      (answer.map fun a => Report.ofWorld a.1 a.2).map Report.withoutMatches =
        (answer.map fun a => (a.1, a.2.observe)).map fun a => ⟨a.1, a.2.1, a.2.2.1, a.2.2.2⟩ := by
    rintro (_ | _) <;> rfl
  exact (hreport _).trans ((congrArg _ hrun).trans (hreport _).symm)

end Context
end TokenScript
