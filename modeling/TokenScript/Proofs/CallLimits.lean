import TokenScript.Proofs.Lockstep.Runs

/-!
# Raising the limit on calls

The limit on nested calls decides one thing only, when a run has to end because a call is one too
many.  A run that does not end for this reason is the same under every higher limit.  A run that
does has said nothing that it would not have said under a higher limit: there it goes on from the
same console.

The two runs are in lockstep, and the lower limit can cut its run off.

* `Outcome.Overcalled`: a run ended because a call was one too many.
* `Console.raising`: one console under two limits.
* `raised_limit_extends`: runs of a program under two limits.
-/

namespace TokenScript

variable {σ : Type} [Console σ]

/-- A call was one too many. -/
def Error.Overcalls (e : Error) : Prop :=
  ∃ limit name, e.cause = .evaluation (.callDepthExceeded limit name)

/-- The run ended because a call was one too many. -/
def Outcome.Overcalled (outcome : Outcome) : Prop := ∃ e, outcome = .failed e ∧ e.Overcalls

namespace Console

/-- A run under a higher limit and a run under a lower one have the same console, until the lower
limit ends the second run; then the console of the first goes on. -/
def raising (σ : Type) [Console σ] : Pairing σ σ where
  Together := (· = ·)
  Cut c e d := e.Overcalls ∧ Later d c
  read := by
    rintro c _ rfl prompt
    exact Or.inl ⟨rfl, rfl⟩
  write := by
    rintro c _ rfl line
    exact Or.inl ⟨rfl, rfl⟩
  cut_later h hlater := ⟨h.1, h.2.trans hlater⟩

theorem lowers_raising {low high : Nat} (hle : low ≤ high) : (raising σ).Lowers high low where
  le := hle
  cut := by
    rintro - c _ name span rfl
    exact ⟨⟨low, name, rfl⟩, .refl⟩

end Console

namespace Context

variable {context : Context} {low high fuel : Nat} {console : σ} {journal : Journal}
  {tokens : Array Token} {report : Report σ}

/-- A run that comes to an end under a limit is the same under a higher one, unless a call was one
too many; and then the console of a run under the higher limit goes on from this one's. -/
theorem runTokens_raised (hle : low ≤ high)
    (hrun : { context with callLimit := low }.runTokens fuel console journal tokens = some report) :
    { context with callLimit := high }.runTokens fuel console journal tokens =
        some (report.over high report.console) ∨
      report.outcome.Overcalled ∧ ∀ more raised,
        { context with callLimit := high }.runTokens more console journal tokens = some raised →
          Console.Later report.console raised.console := by
  have hlowers : (Console.raising σ).Lowers { context with callLimit := high }.callLimit low :=
    Console.lowers_raising hle
  obtain ⟨⟨outcome, last, final, entries⟩, hraised, hreports⟩ | ⟨e, he, ⟨_, hovercalls, -⟩, hcut⟩ :=
    hlowers.runTokens_of_runTokens rfl hrun
  · obtain ⟨_, rfl, rfl⟩ := hreports
    exact Or.inl hraised
  · exact Or.inr ⟨⟨e, he, hovercalls⟩, fun more raised hraised => (hcut more raised hraised).2⟩

end Context

open Console (Buffered)

/-- **Raising the limit on calls only extends what runs do.**  Take a program, a context, a console
and two limits.  Let a run under the lower limit come to an end.

* If it did not end because a call was one too many, then a run under the higher limit comes to the
  same end: with the same outcome, variables, functions, console and journal.
* If it did, and a run under the higher limit comes to an end as well, then the latter's console
  goes on from the former's.  On a console of given lines, output and prompts under the lower limit
  begin those under the higher one. -/
theorem raised_limit_extends {low high : Nat} (hle : low ≤ high) (context : Context)
    (journal : Journal) (tokens : Array Token) (fuel : Nat) :
    (∀ (σ : Type) [Console σ] (console : σ) (report : Report σ),
      { context with callLimit := low }.runTokens fuel console journal tokens = some report →
      (¬report.outcome.Overcalled →
        { context with callLimit := high }.runTokens fuel console journal tokens =
          some { report with context := { report.context with callLimit := high } }) ∧
      (report.outcome.Overcalled → ∀ more raised,
        { context with callLimit := high }.runTokens more console journal tokens = some raised →
          Console.Later report.console raised.console)) ∧
    ∀ (lines : Buffered) (report raised : Report Buffered) (more : Nat),
      { context with callLimit := low }.runTokens fuel lines journal tokens = some report →
      { context with callLimit := high }.runTokens more lines journal tokens = some raised →
      report.outcome.Overcalled →
        report.console.output <+: raised.console.output ∧
          report.console.prompts <+: raised.console.prompts := by
  have hlater : ∀ (σ : Type) [Console σ] (console : σ) (report raised : Report σ) (more : Nat),
      { context with callLimit := low }.runTokens fuel console journal tokens = some report →
      { context with callLimit := high }.runTokens more console journal tokens = some raised →
        Console.Later report.console raised.console := by
    intro σ _ console report raised more hrun hraised
    obtain hsame | ⟨-, hlater⟩ := Context.runTokens_raised hle hrun
    · obtain rfl := Context.runTokens_unique hsame hraised
      exact .refl
    · exact hlater more raised hraised
  constructor
  · intro σ _ console report hrun
    constructor
    · intro hcalls
      obtain hsame | ⟨hovercalled, -⟩ := Context.runTokens_raised hle hrun
      · exact hsame
      · exact absurd hovercalled hcalls
    · exact fun _ more raised hraised => hlater σ console report raised more hrun hraised
  · intro lines report raised more hrun hraised _
    have hsuffix := Buffered.suffix_of_later (hlater Buffered lines report raised more hrun hraised)
    exact ⟨Buffered.isPrefix_output hsuffix, Buffered.isPrefix_prompts hsuffix⟩

/-- What is shown of a run of the program `f`, where `f` reads a line and calls itself, under a
limit. -/
def askingUnder (limit fuel : Nat) : Option (Outcome × Buffered) :=
  (Context.runTokens fuel { selfAsking with callLimit := limit } ⟨["7"], []⟩ .silent
    #[callOf ⟨3, 0⟩]).map fun report => (report.outcome, report.console)

/-- Where one call may be under way, `f` shows one prompt before a call is one too many; where two
may, it shows two.  The program `input x` calls nothing, and the limit makes no difference. -/
theorem raised_limit_extends_selfAsking :
    (∃ report raised : Report Buffered,
      Context.runTokens 3 { selfAsking with callLimit := 1 } ⟨["7"], []⟩ .silent #[callOf ⟨3, 0⟩] =
        some report ∧
      Context.runTokens 5 { selfAsking with callLimit := 2 } ⟨["7"], []⟩ .silent #[callOf ⟨3, 0⟩] =
        some raised ∧
      report.outcome = .failed ⟨.evaluation (.callDepthExceeded 1 "f"), ⟨2, 2⟩⟩ ∧
      report.console.prompts.length = 1 ∧ raised.console.prompts.length = 2 ∧
      report.console.prompts <+: raised.console.prompts) ∧
    ∃ report : Report Buffered,
      Context.runTokens 3 { selfAsking with callLimit := 1 } ⟨["7"], []⟩ .silent inputLine =
        some report ∧
      Context.runTokens 3 { selfAsking with callLimit := 2 } ⟨["7"], []⟩ .silent inputLine =
        some { report with context := { report.context with callLimit := 2 } } := by
  have hle : 1 ≤ 2 := by decide
  constructor
  · have hlow : askingUnder 1 3 = some (.failed ⟨.evaluation (.callDepthExceeded 1 "f"), ⟨2, 2⟩⟩,
        ⟨[], [.prompt "Enter value for x: "]⟩) := by decide +kernel
    have hhigh : askingUnder 2 5 = some (.failed ⟨.evaluation (.callDepthExceeded 2 "f"), ⟨2, 2⟩⟩,
        ⟨[], [.prompt "Enter value for x: ", .prompt "Enter value for x: "]⟩) := by decide +kernel
    obtain ⟨report, hreport, heq⟩ := Option.map_eq_some_iff.1 hlow
    obtain ⟨raised, hraised, heq'⟩ := Option.map_eq_some_iff.1 hhigh
    simp only [Prod.mk.injEq] at heq heq'
    obtain ⟨-, hprompts⟩ := (raised_limit_extends hle selfAsking .silent #[callOf ⟨3, 0⟩] 3).2
      _ report raised 5 hreport hraised ⟨_, heq.1, 1, "f", rfl⟩
    refine ⟨report, raised, hreport, hraised, heq.1, ?_, ?_, hprompts⟩
    · rw [heq.2]
      rfl
    · rw [heq'.2]
      rfl
  · have hshown : (Context.runTokens 3 { selfAsking with callLimit := 1 } (⟨["7"], []⟩ : Buffered)
        .silent inputLine).map Report.outcome = some (.done .next) := by decide +kernel
    obtain ⟨report, hreport, houtcome⟩ := Option.map_eq_some_iff.1 hshown
    refine ⟨report, hreport, ?_⟩
    refine ((raised_limit_extends hle selfAsking .silent inputLine 3).1 _ _ report hreport).1 ?_
    rintro ⟨e, he, -⟩
    rw [houtcome] at he
    cases he

end TokenScript
