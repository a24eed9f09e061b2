import Mathlib.Data.List.Forall2
import TokenScript.Proofs.Lockstep.Statements

/-!
# Runs in lockstep

Two machines in lockstep take their steps side by side.  Either they end together, with the same
outcome, or the second one has been cut off on the way, while the first one goes on.

Worlds that differ in nothing but the console and the limit on calls are the case that occurs most.
There the laws of a lockstep come down to what the two consoles answer.

* `Lockstep.statuses_step`: one step.
* `Lockstep.exists_run_of_run`: if the first machine comes to an end, so does the second.
* `Lockstep.run_of_exists_run`: if the second machine comes to an end and was not cut off, so does
  the first.
* `Console.Pairing`, `Console.Pairing.Lowers.lockstep`: consoles that differ, and limits.
* `Console.Pairing.Lowers.exists_runTokens`, `Console.Pairing.Lowers.runTokens_of_runTokens`: what
  runs of a program report.
-/

namespace TokenScript

variable {σ τ : Type} [Console σ] [Console τ]

namespace Lockstep

variable (L : Lockstep σ τ)

/-! ## Machines -/

/-- The same thing is still to do. -/
inductive Frames : Frame → Frame → Prop
  | block {code other : Code} (cursor stop : Nat) : L.Codes code other →
    Frames (.block code cursor stop) (.block other cursor stop)
  | retest {code other : Code} (condition : Nat) (loop : Loop) (rounds : Nat) : L.Codes code other →
    Frames (.retest code condition loop rounds) (.retest other condition loop rounds)
  | count {code other : Code} {name : String} (first last next : Int) (loop : Loop) :
    L.Codes code other → name ∈ L.Known →
      Frames (.count code name first last next loop) (.count other name first last next loop)
  | call : Frames .call .call

/-- The same things are still to do, in worlds in lockstep. -/
structure Machines (machine : Machine σ) (other : Machine τ) : Prop where
  frames : List.Forall₂ L.Frames machine.frames other.frames
  world : L.Worlds machine.world other.world

/-- The second machine has taken the same step as the first, or has been cut off. -/
def Statuses : Status σ → Status τ → Prop
  | .running machine, .running other => L.Machines machine other
  | .halted outcome a, .halted outcome' b =>
    (outcome = outcome' ∧ L.Worlds a b) ∨ L.CutOff a.console outcome' b.console
  | .running machine, .halted outcome' b => L.CutOff machine.world.console outcome' b.console
  | .halted _ _, .running _ => False

variable {L}

theorem worlds_unwind {frames others : List Frame} (hframes : List.Forall₂ L.Frames frames others)
    {a : World σ} {b : World τ} (hab : L.Worlds a b) :
    L.Worlds (a.unwind frames) (b.unwind others) := by
  induction hframes generalizing a b with
  | nil => exact hab
  | cons hframe _ ih =>
    cases hframe with
    | call => exact ih (L.endCall hab)
    | block | retest | count => exact ih hab

theorem frames_elseFrames {code other : Code} (hcode : L.Codes code other) (loop : Loop) :
    List.Forall₂ L.Frames (Machine.elseFrames code loop) (Machine.elseFrames other loop) := by
  unfold Machine.elseFrames
  cases loop.otherwise with
  | none => exact .nil
  | some extent => exact .cons (.block _ _ hcode) .nil

/-- Going on after a statement. -/
theorem statuses_follow {code other : Code} {flow flow' : Flow} {rest rest' : List Frame}
    {a : World σ} {b : World τ} (hcode : L.Codes code other) (hflow : L.Flows flow flow')
    (hrest : List.Forall₂ L.Frames rest rest') (hab : L.Worlds a b) (stop : Nat) :
    L.Statuses (Machine.follow code stop flow rest a)
      (Machine.follow other stop flow' rest' b) := by
  cases hflow with
  | advance next => exact ⟨.cons (.block next stop hcode) hrest, hab⟩
  | enter block next => exact ⟨.cons (.block _ _ hcode) (.cons (.block next stop hcode) hrest), hab⟩
  | retest condition loop next =>
    exact ⟨.cons (.retest condition loop 0 hcode) (.cons (.block next stop hcode) hrest), hab⟩
  | count first last loop next hname =>
    exact ⟨.cons (.count _ _ _ loop hcode hname) (.cons (.block next stop hcode) hrest), hab⟩
  | @call body another next hbody =>
    have hblock : L.Frames (.block body 0 body.size) (.block another 0 another.size) := by
      rw [size_eq hbody]
      exact .block 0 body.size hbody
    exact ⟨.cons hblock (.cons .call (.cons (.block next stop hcode) hrest)), L.hold hab hbody⟩
  | exit => exact Or.inl ⟨rfl, worlds_unwind hrest hab⟩

/-- The second machine has been cut off in this step. -/
theorem statuses_of_cutOff {status : Status σ} {outcome : Outcome} {b : World τ}
    (h : L.CutOff status.console outcome b.console) : L.Statuses status (.halted outcome b) := by
  cases status with
  | running machine => exact h
  | halted outcome' a => exact Or.inr h

/-- Both machines have halted because an action was abandoned. -/
theorem statuses_of_abandoned {rest rest' : List Frame} (hrest : List.Forall₂ L.Frames rest rest')
    {abort abort' : Abort} {a : World σ} {b : World τ}
    (h : (abort = abort' ∧ L.Worlds a b) ∨ L.CutOff a.console abort'.outcome b.console) :
    L.Statuses (.halted abort.outcome (a.unwind rest))
      (.halted abort'.outcome (b.unwind rest')) := by
  rcases h with ⟨rfl, hab⟩ | hcut
  · exact Or.inl ⟨rfl, worlds_unwind hrest hab⟩
  · refine Or.inr ?_
    rw [World.console_unwind, World.console_unwind]
    exact hcut

/-- One step. -/
theorem statuses_step {machine : Machine σ} {other : Machine τ} (h : L.Machines machine other) :
    L.Statuses machine.step other.step := by
  obtain ⟨frames, a⟩ := machine
  obtain ⟨others, b⟩ := other
  obtain ⟨hframes, hab⟩ := h
  cases hframes with
  | nil => exact Or.inl ⟨rfl, hab⟩
  | @cons _ _ rest rest' hframe hrest =>
    cases hframe with
    | call => exact ⟨hrest, L.endCall hab⟩
    | @block code other cursor stop hcode =>
      by_cases hinside : cursor < stop ∧ cursor < code.size
      · rw [Machine.step_block hinside, Machine.step_block (size_eq hcode ▸ hinside)]
        have hpaired := pairs_execute hcode cursor a b hab
        revert hpaired
        cases (Statement.execute code cursor).run a with
        | ok flow a =>
          cases (Statement.execute other cursor).run b with
          | ok flow' b => exact fun hpaired => statuses_follow hcode hpaired.1 hrest hpaired.2 stop
          | error abort' b =>
            rintro ⟨-, hcut⟩
            refine statuses_of_cutOff ?_
            rw [Machine.console_follow, World.console_unwind]
            exact hcut
        | error abort a =>
          cases (Statement.execute other cursor).run b with
          | ok flow' b => exact False.elim
          | error abort' b => exact statuses_of_abandoned hrest
      · have houtside : ¬(cursor < stop ∧ cursor < other.size) := size_eq hcode ▸ hinside
        simp only [Machine.step, if_neg hinside, if_neg houtside]
        exact ⟨hrest, hab⟩
    | @retest code other condition loop rounds hcode =>
      simp only [Machine.step]
      have hpaired := pairs_evaluate hcode condition a b hab
      revert hpaired
      cases (Action.evaluate code condition).run a with
      | ok value a =>
        cases (Action.evaluate other condition).run b with
        | ok value' b =>
          rintro ⟨⟨rfl, -⟩, hab⟩
          dsimp only
          split
          · exact ⟨.cons (.block _ _ hcode)
              (.cons (.retest condition loop (rounds + 1) hcode) hrest), hab⟩
          · exact ⟨List.rel_append (frames_elseFrames hcode loop) hrest, L.note hab _⟩
        | error abort' b =>
          rintro ⟨-, hcut⟩
          refine statuses_of_cutOff ?_
          rw [World.console_unwind]
          dsimp only
          split <;> exact hcut
      | error abort a =>
        cases (Action.evaluate other condition).run b with
        | ok value' b => exact False.elim
        | error abort' b => exact statuses_of_abandoned hrest
    | @count code other name first last next loop hcode hname =>
      simp only [Machine.step]
      split
      · exact ⟨.cons (.block _ _ hcode)
          (.cons (.count first last (next + 1) loop hcode hname) hrest),
          L.assign hab hname _⟩
      · exact ⟨List.rel_append (frames_elseFrames hcode loop) hrest, L.note hab _⟩

/-! ## Runs -/

/-- Once the second machine has been cut off, this stays so until the first one comes to its end. -/
theorem CutOff.run {machine : Machine σ} {outcome outcome' : Outcome} {a : World σ} {d : τ}
    {fuel : Nat} (h : L.CutOff machine.world.console outcome' d)
    (hrun : machine.run fuel = some (outcome, a)) :
    L.CutOff a.console outcome' d :=
  h.later (Machine.grows_of_run hrun).console

/-- If the first machine comes to an end, so does the second, in as many steps at most: with the
same outcome, or because it was cut off. -/
theorem exists_run_of_run {machine : Machine σ} {other : Machine τ} (h : L.Machines machine other)
    {fuel : Nat} {outcome : Outcome} {a : World σ} (hrun : machine.run fuel = some (outcome, a)) :
    ∃ outcome' b, other.run fuel = some (outcome', b) ∧
      ((outcome = outcome' ∧ L.Worlds a b) ∨ L.CutOff a.console outcome' b.console) := by
  -- both machines take one step; the induction goes on as long as both are running
  induction fuel generalizing machine other with
  | zero => cases hrun
  | succ fuel ih =>
    have hstep := statuses_step h
    rw [Machine.run] at hrun ⊢
    revert hstep hrun
    cases machine.step with
    | running next =>
      intro hrun
      cases other.step with
      | running next' => exact fun hnext => ih hnext hrun
      | halted outcome' b => exact fun hcut => ⟨outcome', b, rfl, Or.inr (hcut.run hrun)⟩
    | halted early final =>
      intro hrun
      obtain ⟨rfl, rfl⟩ := Prod.mk.inj (Option.some.inj hrun)
      cases other.step with
      | running next' => exact False.elim
      | halted outcome' b => exact fun hend => ⟨outcome', b, rfl, hend⟩

variable (L) in
/-- The second run has been cut off.  The first machine may go on for ever; if it comes to an end,
the consoles are still related. -/
def Outlives (machine : Machine σ) (outcome : Outcome) (d : τ) : Prop :=
  ∃ e, outcome = .failed e ∧ (∃ c, L.Cut c e d) ∧
    ∀ fuel ending a, machine.run fuel = some (ending, a) → L.Cut a.console e d

theorem outlives_of_cutOff {machine : Machine σ} {outcome : Outcome} {d : τ}
    (h : L.CutOff machine.step.console outcome d) : L.Outlives machine outcome d := by
  obtain ⟨e, he, hcut⟩ := h
  refine ⟨e, he, ⟨_, hcut⟩, fun fuel ending a hrun => L.cut_later hcut ?_⟩
  cases fuel with
  | zero => cases hrun
  | succ fuel =>
    rw [Machine.run] at hrun
    revert hrun
    cases machine.step with
    | running next => exact fun hrun => (Machine.grows_of_run hrun).console
    | halted ending final =>
      intro hrun
      obtain ⟨rfl, rfl⟩ := Prod.mk.inj (Option.some.inj hrun)
      exact .refl

theorem Outlives.of_step {machine next : Machine σ} {outcome : Outcome} {d : τ}
    (h : L.Outlives next outcome d) (hstep : machine.step = .running next) :
    L.Outlives machine outcome d := by
  obtain ⟨e, he, hsome, hcut⟩ := h
  refine ⟨e, he, hsome, fun fuel ending a hrun => ?_⟩
  cases fuel with
  | zero => cases hrun
  | succ fuel =>
    rw [Machine.run, hstep] at hrun
    exact hcut fuel ending a hrun

/-- If the second machine comes to an end, then so does the first, in as many steps and with the
same outcome; or the second one was cut off. -/
theorem run_of_exists_run {machine : Machine σ} {other : Machine τ} (h : L.Machines machine other)
    {fuel : Nat} {outcome : Outcome} {b : World τ} (hrun : other.run fuel = some (outcome, b)) :
    (∃ a, machine.run fuel = some (outcome, a) ∧ L.Worlds a b) ∨
      L.Outlives machine outcome b.console := by
  induction fuel generalizing machine other with
  | zero => cases hrun
  | succ fuel ih =>
    have hstep := statuses_step h
    rw [Machine.run] at hrun ⊢
    revert hstep hrun
    cases hother : other.step with
    | running next' =>
      intro hrun
      cases hfirst : machine.step with
      | running next => exact fun hnext => (ih hnext hrun).imp_right (Outlives.of_step · hfirst)
      | halted early final => exact False.elim
    | halted early final =>
      intro hrun
      obtain ⟨rfl, rfl⟩ := Prod.mk.inj (Option.some.inj hrun)
      cases hfirst : machine.step with
      | running next =>
        intro hcut
        refine Or.inr (outlives_of_cutOff ?_)
        rw [hfirst]
        exact hcut
      | halted ending a =>
        rintro (⟨rfl, hab⟩ | hcut)
        · exact Or.inl ⟨a, rfl, hab⟩
        · refine Or.inr (outlives_of_cutOff ?_)
          rw [hfirst]
          exact hcut

/-- Where nothing cuts a run off, both machines come to an end in as many steps, or neither does. -/
theorem rel_run (hcut : ∀ c e d, ¬L.Cut c e d) {machine : Machine σ} {other : Machine τ}
    (h : L.Machines machine other) (fuel : Nat) :
    Option.Rel (fun answer answer' => answer.1 = answer'.1 ∧ L.Worlds answer.2 answer'.2)
      (machine.run fuel) (other.run fuel) := by
  cases hfirst : machine.run fuel with
  | some answer =>
    obtain ⟨outcome', b, hsecond, hsame | ⟨e, -, hfalse⟩⟩ := exists_run_of_run h hfirst
    · rw [hsecond]
      exact .some hsame
    · exact absurd hfalse (hcut _ _ _)
  | none =>
    cases hsecond : other.run fuel with
    | none => exact .none
    | some answer' =>
      obtain ⟨a, hrun, -⟩ | ⟨e, -, ⟨c, hfalse⟩, -⟩ := run_of_exists_run h hsecond
      · rw [hfirst] at hrun
        cases hrun
      · exact absurd hfalse (hcut _ _ _)

end Lockstep

/-! ## Other consoles and other limits -/

/-- The same world with another console, and with another limit on calls. -/
def World.over (world : World σ) (limit : Nat) (console : τ) : World τ :=
  ⟨{ world.context with callLimit := limit }, console, world.held, world.closes, world.journal⟩

/-- How two consoles keep pace with each other, and how the second one may drop out. -/
structure Console.Pairing (σ τ : Type) [Console σ] [Console τ] where
  Together : σ → τ → Prop
  Cut : σ → Error → τ → Prop
  read {c : σ} {d : τ} : Together c d → ∀ prompt,
    Answered Together Cut (Console.readLine prompt c) (Console.readLine prompt d)
  write {c : σ} {d : τ} : Together c d → ∀ line,
    Answered Together Cut (Console.writeLine line c) (Console.writeLine line d)
  cut_later {c c' : σ} {e : Error} {d : τ} : Cut c e d → Console.Later c c' → Cut c' e d

namespace Console.Pairing

variable (P : Console.Pairing σ τ) {limit limit' : Nat}

/-- The worlds are equal but for their consoles, which keep pace, and for their limits on calls. -/
inductive Abreast (limit limit' : Nat) (a : World σ) : World τ → Prop
  | intro (d : τ) : a.context.callLimit = limit → P.Together a.console d →
    Abreast limit limit' a (a.over limit' d)

/-- The second limit is not above the first.  If it is below, then the second run is cut off where a
call is one too many. -/
structure Lowers (limit limit' : Nat) : Prop where
  le : limit' ≤ limit
  cut : limit' < limit → ∀ c d name span, P.Together c d →
    P.Cut c ⟨.evaluation (.callDepthExceeded limit' name), span⟩ d

/-- The limit is not lowered at all. -/
theorem lowers_refl (limit : Nat) : P.Lowers limit limit :=
  ⟨Nat.le_refl limit, fun hlt => absurd hlt (Nat.lt_irrefl limit)⟩

variable {P} in
/-- Worlds whose consoles keep pace are in lockstep. -/
def Lowers.lockstep (h : P.Lowers limit limit') : Lockstep σ τ where
  Worlds := P.Abreast limit limit'
  Codes := (· = ·)
  Known := Set.univ
  Cut := P.Cut
  tokens_eq h := by rw [h]
  names_known _ := Set.subset_univ _
  agree := by
    rintro a _ ⟨d, -, -⟩
    exact fun _ _ => rfl
  bodies := by
    rintro a _ ⟨d, -, -⟩
    exact a.context.functions.rel_get?_self fun _ => rfl
  remembered := by
    rintro a _ code _ ⟨d, -, -⟩ rfl start
    rfl
  note := by
    rintro a _ ⟨d, hlimit, htogether⟩ event
    exact ⟨d, hlimit, htogether⟩
  assign := by
    rintro a _ name ⟨d, hlimit, htogether⟩ - value
    exact ⟨d, hlimit, htogether⟩
  define := by
    rintro a _ name body ⟨d, hlimit, htogether⟩ - -
    exact ⟨d, hlimit, htogether⟩
  remember := by
    rintro a _ code _ ⟨d, hlimit, htogether⟩ rfl start index
    exact ⟨d, hlimit, htogether⟩
  startCall := by
    rintro a _ ⟨d, hlimit, htogether⟩ name
    exact ⟨d, hlimit, htogether⟩
  hold := by
    rintro a _ code _ ⟨d, hlimit, htogether⟩ rfl
    exact ⟨d, hlimit, htogether⟩
  endCall := by
    rintro a _ ⟨d, hlimit, htogether⟩
    exact ⟨d, hlimit, htogether⟩
  read := by
    rintro a _ ⟨d, hlimit, htogether⟩ prompt
    exact (P.read htogether prompt).imp_left fun hsame => ⟨hsame.1, _, hlimit, hsame.2⟩
  write := by
    rintro a _ ⟨d, hlimit, htogether⟩ line
    exact (P.write htogether line).imp_left fun hsame => ⟨hsame.1, _, hlimit, hsame.2⟩
  full := by
    rintro a _ ⟨d, rfl, -⟩ hfull
    exact h.le.trans hfull
  refused := by
    rintro a _ ⟨d, rfl, htogether⟩ hfull
    rcases h.le.eq_or_lt with heq | hlt
    · refine Or.inl ⟨?_, heq.symm⟩
      rw [World.Full, ← heq]
      exact hfull
    · exact Or.inr fun name span => h.cut hlt _ _ name span htogether
  cut_later := P.cut_later

end Console.Pairing

/-! ## Reports -/

/-- The same report with another console, and with another limit on calls. -/
def Report.over (report : Report σ) (limit : Nat) (console : τ) : Report τ :=
  ⟨report.outcome, { report.context with callLimit := limit }, console, report.journal⟩

omit [Console σ] [Console τ] in
theorem Context.noteEnd_over (report : Report σ) (limit : Nat) (console : τ) :
    noteEnd (report.over limit console) = (noteEnd report).over limit console := by
  obtain ⟨outcome, context, _, journal⟩ := report
  cases outcome <;> rfl

theorem Context.runTokens_eq_some_iff {fuel : Nat} {context : Context} {console : σ}
    {journal : Journal} {tokens : Array Token} {report : Report σ} :
    context.runTokens fuel console journal tokens = some report ↔
      ∃ outcome final, (context.machine console journal tokens).run fuel = some (outcome, final) ∧
        noteEnd (.ofWorld outcome final) = report := by
  rw [runTokens, runRange, finish, Option.map_map, Option.map_eq_some_iff, Prod.exists]
  rfl

/-- A run that may take more steps reports the same. -/
theorem Context.runTokens_mono {context : Context} {fuel more : Nat} {console : σ}
    {journal : Journal} {tokens : Array Token} {report : Report σ} (hle : fuel ≤ more)
    (h : context.runTokens fuel console journal tokens = some report) :
    context.runTokens more console journal tokens = some report := by
  obtain ⟨outcome, final, hrun, heq⟩ := runTokens_eq_some_iff.1 h
  exact runTokens_eq_some_iff.2 ⟨outcome, final, Machine.run_mono hle hrun, heq⟩

/-- However many steps it may take, a run reports the same. -/
theorem Context.runTokens_unique {context : Context} {fuel more : Nat} {console : σ}
    {journal : Journal} {tokens : Array Token} {report other : Report σ}
    (h : context.runTokens fuel console journal tokens = some report)
    (hmore : context.runTokens more console journal tokens = some other) : report = other := by
  refine Option.some.inj ?_
  rcases Nat.le_total fuel more with hle | hle
  · exact (runTokens_mono hle h).symm.trans hmore
  · exact h.symm.trans (runTokens_mono hle hmore)

namespace Console.Pairing

variable (P : Console.Pairing σ τ)

/-- The reports are equal but for their consoles, which keep pace, and for their limits on calls. -/
inductive Reports (limit limit' : Nat) (report : Report σ) : Report τ → Prop
  | intro (d : τ) : report.context.callLimit = limit → P.Together report.console d →
    Reports limit limit' report (report.over limit' d)

variable {P} {limit limit' fuel : Nat} {c : σ} {d : τ} {journal : Journal} {tokens : Array Token}

theorem Abreast.reports {a : World σ} {b : World τ} (h : P.Abreast limit limit' a b)
    (outcome : Outcome) :
    P.Reports limit limit' (Context.noteEnd (.ofWorld outcome a))
      (Context.noteEnd (.ofWorld outcome b)) := by
  obtain ⟨d, hlimit, htogether⟩ := h
  change P.Reports limit limit' _ (Context.noteEnd ((Report.ofWorld outcome a).over limit' d))
  rw [Context.noteEnd_over]
  refine .intro d ?_ ?_
  · rw [Context.context_noteEnd]
    exact hlimit
  · rw [Context.console_noteEnd]
    exact htogether

namespace Lowers

variable {context : Context} (h : P.Lowers context.callLimit limit) (hconsole : P.Together c d)
include h hconsole

theorem machines :
    h.lockstep.Machines (context.machine c journal tokens)
      ({ context with callLimit := limit }.machine d journal tokens) :=
  ⟨.cons (.block _ _ rfl) .nil, ⟨d, rfl, hconsole⟩⟩

/-- If a run comes to an end, so does the one with the other console and the lower limit. -/
theorem exists_runTokens {report : Report σ}
    (hrun : context.runTokens fuel c journal tokens = some report) :
    ∃ other, { context with callLimit := limit }.runTokens fuel d journal tokens = some other ∧
      (P.Reports context.callLimit limit report other ∨
        ∃ e, other.outcome = .failed e ∧ P.Cut report.console e other.console) := by
  obtain ⟨outcome, a, hfirst, rfl⟩ := Context.runTokens_eq_some_iff.1 hrun
  obtain ⟨outcome', b, hsecond, hend⟩ := Lockstep.exists_run_of_run (h.machines hconsole) hfirst
  refine ⟨_, Context.runTokens_eq_some_iff.2 ⟨outcome', b, hsecond, rfl⟩, ?_⟩
  rcases hend with ⟨rfl, habreast⟩ | ⟨e, he, hcut⟩
  · exact Or.inl (habreast.reports outcome)
  · rw [Context.outcome_noteEnd, Context.console_noteEnd, Context.console_noteEnd]
    exact Or.inr ⟨e, he, hcut⟩

/-- If a run with the other console and the lower limit comes to an end, then so does the one with
the first console and the higher limit, or the other was cut off. -/
theorem runTokens_of_runTokens {other : Report τ}
    (hrun : { context with callLimit := limit }.runTokens fuel d journal tokens = some other) :
    (∃ report, context.runTokens fuel c journal tokens = some report ∧
        P.Reports context.callLimit limit report other) ∨
      ∃ e, other.outcome = .failed e ∧ (∃ c, P.Cut c e other.console) ∧ ∀ more report,
        context.runTokens more c journal tokens = some report →
          P.Cut report.console e other.console := by
  obtain ⟨outcome, b, hsecond, rfl⟩ := Context.runTokens_eq_some_iff.1 hrun
  obtain ⟨a, hfirst, habreast⟩ | ⟨e, he, hsome, hcut⟩ :=
    Lockstep.run_of_exists_run (h.machines hconsole) hsecond
  · exact Or.inl
      ⟨_, Context.runTokens_eq_some_iff.2 ⟨outcome, a, hfirst, rfl⟩, habreast.reports outcome⟩
  · rw [Context.outcome_noteEnd, Context.console_noteEnd]
    refine Or.inr ⟨e, he, hsome, fun more report hmore => ?_⟩
    obtain ⟨ending, a, hfirst, rfl⟩ := Context.runTokens_eq_some_iff.1 hmore
    rw [Context.console_noteEnd]
    exact hcut more ending a hfirst

end Lowers
end Console.Pairing
end TokenScript
