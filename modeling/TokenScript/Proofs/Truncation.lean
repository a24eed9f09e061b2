import TokenScript.Proofs.Lockstep.Runs

/-!
# A failing console truncates a run

Take a console that never fails, and the same console that breaks down at some write and at some
read.  Until the first failure nobody can tell the two apart, so neither can a script; and the first
failure ends the run.  What the run has shown by then is the beginning of what it would have shown,
and it does not turn to the console again.

To say the last thing a console is put under observation: it then keeps a list of all that is asked
of it, successful or not.  Observation itself changes nothing.

* `Console.Watched`: a console under observation.
* `Console.watching`: observation changes nothing.
* `Console.breaking`: a console, and the same console when it breaks down.
* `failing_console_truncates`: runs of a program.
-/

namespace TokenScript

variable {σ : Type}

namespace Console

/-! ## Observation -/

/-- A console and the attempts that were made to talk to it, the latest first.  An attempt is an
exchange and whether it succeeded. -/
structure Watched (σ : Type) where
  inner : σ
  attempts : List (Exchange × Bool) := []

instance [Console σ] : Console (Watched σ) where
  readLine prompt console :=
    match readLine prompt console.inner with
    | (answer, inner) => (answer, ⟨inner, (.prompt prompt, answer.isOk) :: console.attempts⟩)
  writeLine line console :=
    match writeLine line console.inner with
    | (answer, inner) => (answer, ⟨inner, (.line line, answer.isOk) :: console.attempts⟩)

/-- A console, and the same console under observation. -/
def watching (σ : Type) [Console σ] : Pairing σ (Watched σ) where
  Together c d := d.inner = c
  Cut _ _ _ := False
  read := by
    rintro _ d rfl prompt
    exact Or.inl ⟨rfl, rfl⟩
  write := by
    rintro _ d rfl line
    exact Or.inl ⟨rfl, rfl⟩
  cut_later h _ := h

/-! ## Breaking down -/

variable (lines : Buffered) (n m : Nat)

/-- The console has gone on from `lines` by at most `n` writes and at most `m` reads. -/
def Buffered.Within (console : Buffered) : Prop :=
  console.output.length ≤ lines.output.length + n ∧
  console.prompts.length ≤ lines.prompts.length + m

/-- The console has gone on from `lines`, and its double has not broken down: it has heard the same,
and has the rest of `n` writes and of `m` reads left. -/
inductive Intact (c : Buffered) : Watched (Faulty Buffered) → Prop
  | intro (writes reads : Nat) (attempts : List (Exchange × Bool)) :
    c.output.length + writes = lines.output.length + n →
      c.prompts.length + reads = lines.prompts.length + m →
      attempts.map Prod.fst ++ lines.transcript = c.transcript →
      (∀ attempt ∈ attempts, attempt.2 = true) →
      Intact c ⟨⟨c, some reads, some writes⟩, attempts⟩

/-- The double has broken down at its last attempt, after `n` writes or after `m` reads.  The
console has gone on, and the failed exchange was the next that it heard. -/
structure Broken (c : Buffered) (d : Watched (Faulty Buffered)) (failed : Exchange) : Prop where
  attempts : ∃ made, d.attempts = (failed, false) :: made ∧
    made.map Prod.fst ++ lines.transcript = d.inner.inner.transcript ∧
    ∀ attempt ∈ made, attempt.2 = true
  suffix : failed :: d.inner.inner.transcript <:+ c.transcript
  writes : ∀ text, failed = .line text → d.inner.inner.output.length = lines.output.length + n
  reads : ∀ text, failed = .prompt text → d.inner.inner.prompts.length = lines.prompts.length + m

namespace Buffered

theorem output_line (console : Buffered) (inputs : List String) (text : String) :
    (⟨inputs, .line text :: console.transcript⟩ : Buffered).output = console.output ++ [text] := by
  simp [output]

theorem output_prompt (console : Buffered) (inputs : List String) (text : String) :
    (⟨inputs, .prompt text :: console.transcript⟩ : Buffered).output = console.output := by
  simp [output]

/-- A console of given lines answers with the next of them. -/
theorem readLine_eq (prompt : String) (console : Buffered) :
    readLine prompt console =
      (.ok console.inputs.head?, ⟨console.inputs.tail, .prompt prompt :: console.transcript⟩) := by
  obtain ⟨inputs, transcript⟩ := console
  cases inputs <;> rfl

theorem writeLine_eq (line : String) (console : Buffered) :
    writeLine line console = (.ok (), ⟨console.inputs, .line line :: console.transcript⟩) :=
  rfl

end Buffered

/-- A double that has a read left answers as the console does. -/
theorem readLine_unbroken (prompt : String) (c : Buffered) (reads : Nat) (writes : Option Nat)
    (attempts : List (Exchange × Bool)) :
    readLine prompt (⟨⟨c, some (reads + 1), writes⟩, attempts⟩ : Watched (Faulty Buffered)) =
      (.ok c.inputs.head?, ⟨⟨⟨c.inputs.tail, .prompt prompt :: c.transcript⟩, some reads, writes⟩,
        (.prompt prompt, true) :: attempts⟩) := by
  obtain ⟨inputs, transcript⟩ := c
  cases inputs <;> rfl

/-- A console, and its double that breaks down after `n` writes and after `m` reads. -/
def breaking : Pairing Buffered (Watched (Faulty Buffered)) where
  Together := Intact lines n m
  Cut c e d := e = ⟨.console Faulty.reason, .nowhere⟩ ∧ ∃ failed, Broken lines n m c d failed
  read := by
    rintro c _ ⟨writes, reads, attempts, hwrites, hreads, htranscript, hsucceeded⟩ prompt
    rw [Buffered.readLine_eq]
    cases reads with
    | zero =>
      refine Or.inr ⟨Faulty.reason, rfl, rfl, .prompt prompt, ?_⟩
      exact ⟨⟨attempts, rfl, htranscript, hsucceeded⟩, List.suffix_refl _, nofun, fun _ _ => hreads⟩
    | succ reads =>
      rw [readLine_unbroken]
      refine Or.inl ⟨rfl, .intro writes reads _ ?_ ?_ (congrArg _ htranscript) ?_⟩
      · rwa [Buffered.output_prompt]
      · rw [Buffered.prompts_prompt, List.length_append, List.length_singleton]
        omega
      · exact List.forall_mem_cons.2 ⟨rfl, hsucceeded⟩
  write := by
    rintro c _ ⟨writes, reads, attempts, hwrites, hreads, htranscript, hsucceeded⟩ line
    rw [Buffered.writeLine_eq]
    cases writes with
    | zero =>
      refine Or.inr ⟨Faulty.reason, rfl, rfl, .line line, ?_⟩
      exact ⟨⟨attempts, rfl, htranscript, hsucceeded⟩, List.suffix_refl _,
        fun _ _ => hwrites, nofun⟩
    | succ writes =>
      refine Or.inl ⟨rfl, .intro writes reads _ ?_ ?_ (congrArg _ htranscript) ?_⟩
      · rw [Buffered.output_line, List.length_append, List.length_singleton]
        omega
      · rwa [Buffered.prompts_line]
      · exact List.forall_mem_cons.2 ⟨rfl, hsucceeded⟩
  cut_later := by
    rintro c c' e d ⟨he, failed, hbroken⟩ hlater
    exact ⟨he, failed,
      { hbroken with suffix := hbroken.suffix.trans (Buffered.suffix_of_later hlater) }⟩

variable {lines n m} {c : Buffered} {d : Watched (Faulty Buffered)}

theorem Intact.within (h : Intact lines n m c d) : lines.Within n m c := by
  obtain ⟨writes, reads, attempts, hwrites, hreads, -, -⟩ := h
  exact ⟨by omega, by omega⟩

/-- Where the double has broken down, the console has heard one exchange more than the double
can. -/
theorem Broken.not_within {failed : Exchange} (h : Broken lines n m c d failed) :
    ¬lines.Within n m c := by
  rintro ⟨hwrites, hreads⟩
  cases failed with
  | line text =>
    have hshown : (⟨[], .line text :: d.inner.inner.transcript⟩ : Buffered).output <+: c.output :=
      Buffered.isPrefix_output h.suffix
    have hlength := hshown.length_le
    rw [Buffered.output_line, List.length_append, List.length_singleton,
      h.writes text rfl] at hlength
    omega
  | prompt text =>
    have hshown :
        (⟨[], .prompt text :: d.inner.inner.transcript⟩ : Buffered).prompts <+: c.prompts :=
      Buffered.isPrefix_prompts h.suffix
    have hlength := hshown.length_le
    rw [Buffered.prompts_prompt, List.length_append, List.length_singleton,
      h.reads text rfl] at hlength
    omega

end Console

open Console

/-- A run over a console under observation is the run over the console itself. -/
theorem Context.runTokens_of_watched [Console σ] {context : Context} {fuel : Nat}
    {console : σ} {journal : Journal} {tokens : Array Token} {watched : Report (Watched σ)}
    (h : context.runTokens fuel (⟨console, []⟩ : Watched σ) journal tokens = some watched) :
    context.runTokens fuel console journal tokens =
      some (watched.over context.callLimit watched.console.inner) := by
  have hlowers := (watching σ).lowers_refl context.callLimit
  obtain ⟨⟨outcome, last, final, entries⟩, hrun, ⟨_, hlimit, rfl⟩⟩ | ⟨e, -, ⟨_, hcut⟩, -⟩ :=
    hlowers.runTokens_of_runTokens (d := ⟨console, []⟩) rfl h
  · rw [← hlimit]
    exact hrun
  · exact False.elim hcut

/-- The run ended when its console broke down.  The console was `lines` at the start, it could take
`n` writes and `m` reads, and `failed` is the exchange that failed. -/
structure Truncated (lines : Buffered) (n m : Nat) (failed : Exchange) (good : Report Buffered)
    (report : Report (Faulty Buffered)) : Prop where
  error : ∃ e, report.outcome = .failed e ∧ e.kind.code = "E_IO" ∧ e.span.line = 0 ∧
    e.span.column = 0
  output : report.console.inner.output <+: good.console.output
  prompts : report.console.inner.prompts <+: good.console.prompts
  /-- The failed exchange is the next that a console would have heard that did not break down. -/
  next : failed :: report.console.inner.transcript <:+ good.console.transcript
  writes : ∀ text, failed = .line text →
    report.console.inner.output.length = lines.output.length + n
  reads : ∀ text, failed = .prompt text →
    report.console.inner.prompts.length = lines.prompts.length + m

/-- **A failing console truncates a run, and does nothing else.**  Let a run of a program over a
console of given lines come to an end, and let the same console fail from some write and from some
read on.  Then the run over the failing console comes to an end as well.

* If the good run needs no more writes and reads than succeed, then both runs are identical: the
  outcome, the context, all that was said, and the journal.
* Otherwise the run ends with an error of the console, which has no place in the program.  Its
  output and its prompts begin those of the good run, and it has made exactly as many writes as
  succeed, if it was a write that failed first, or as many reads, if it was a read.  Under
  observation the run is seen to attempt what has been said, then what failed, and nothing after
  that. -/
theorem failing_console_truncates (context : Context) (journal : Journal) (tokens : Array Token)
    (lines : Buffered) (n m fuel : Nat) {good : Report Buffered}
    (hgood : context.runTokens fuel lines journal tokens = some good) :
    ∃ report : Report (Faulty Buffered),
      context.runTokens fuel (⟨lines, some m, some n⟩ : Faulty Buffered) journal tokens =
        some report ∧
      (lines.Within n m good.console →
        report.outcome = good.outcome ∧ report.context = good.context ∧
          report.console.inner = good.console ∧ report.journal = good.journal) ∧
      (¬lines.Within n m good.console →
        ∃ failed, Truncated lines n m failed good report ∧
          ∃ (made : List (Exchange × Bool)) (watched : Report (Watched (Faulty Buffered))),
            context.runTokens fuel
              (⟨⟨lines, some m, some n⟩, []⟩ : Watched (Faulty Buffered)) journal
              tokens = some watched ∧
            watched.outcome = report.outcome ∧
            watched.console = ⟨report.console, (failed, false) :: made⟩ ∧
            made.map Prod.fst ++ lines.transcript = report.console.inner.transcript ∧
            ∀ attempt ∈ made, attempt.2 = true) := by
  have hlowers := (breaking lines n m).lowers_refl context.callLimit
  have hstart : Intact lines n m lines ⟨⟨lines, some m, some n⟩, []⟩ :=
    ⟨n, m, [], rfl, rfl, rfl, nofun⟩
  -- the run is observed, and then the observation is taken away again
  obtain ⟨watched, hwatched, hend⟩ := hlowers.exists_runTokens hstart hgood
  refine ⟨_, Context.runTokens_of_watched hwatched, ?_⟩
  rcases hend with ⟨d, hlimit, hintact⟩ | ⟨e, he, rfl, failed, hbroken⟩
  · refine ⟨fun _ => ⟨rfl, ?_, ?_, rfl⟩, fun hbeyond => absurd hintact.within hbeyond⟩
    · rw [← hlimit]
      rfl
    · obtain ⟨writes, reads, attempts, -⟩ := hintact
      rfl
  · refine ⟨fun hwithin => absurd hwithin hbroken.not_within, fun _ => ⟨failed, ?_, ?_⟩⟩
    · have hshown := (List.suffix_cons _ _).trans hbroken.suffix
      exact ⟨⟨_, he, rfl, rfl, rfl⟩, Buffered.isPrefix_output hshown,
        Buffered.isPrefix_prompts hshown,
        hbroken.suffix, hbroken.writes, hbroken.reads⟩
    · obtain ⟨made, hattempts, htranscript, hsucceeded⟩ := hbroken.attempts
      refine ⟨made, watched, hwatched, rfl, ?_, htranscript, hsucceeded⟩
      rw [← hattempts]
      rfl

/-- The tokens of `input x print x`. -/
def echoLine : Array Token :=
  inputLine ++ #[⟨.keyword .print, "print", ⟨1, 8⟩⟩, ⟨.identifier "x", "x", ⟨1, 14⟩⟩]

/-- A program that reads a line and writes it.  A console that can write once and read once is as
good as one that never fails; over one that can only read, the run ends at the write. -/
theorem failing_console_truncates_echoLine :
    ∃ good : Report Buffered,
      (Context.fresh 1).runTokens 4 (⟨["7"], []⟩ : Buffered) .silent echoLine = some good ∧
      good.console = ⟨[], [.line "7", .prompt "Enter value for x: "]⟩ ∧
      (∃ report : Report (Faulty Buffered),
        (Context.fresh 1).runTokens 4 (⟨⟨["7"], []⟩, some 1, some 1⟩ : Faulty Buffered)
          .silent echoLine =
          some report ∧
        report.outcome = good.outcome ∧ report.console.inner = good.console) ∧
      ∃ (report : Report (Faulty Buffered)) (failed : Exchange),
        (Context.fresh 1).runTokens 4 (⟨⟨["7"], []⟩, some 1, some 0⟩ : Faulty Buffered)
          .silent echoLine =
          some report ∧
        Truncated ⟨["7"], []⟩ 0 1 failed good report := by
  have hshown : ((Context.fresh 1).runTokens 4 (⟨["7"], []⟩ : Buffered) .silent echoLine).map
      Report.console = some ⟨[], [.line "7", .prompt "Enter value for x: "]⟩ := by decide +kernel
  obtain ⟨good, hgood, hconsole⟩ := Option.map_eq_some_iff.1 hshown
  refine ⟨good, hgood, hconsole, ?_, ?_⟩
  · obtain ⟨report, hreport, hsame, -⟩ := failing_console_truncates _ _ _ _ 1 1 _ hgood
    have hwithin : Buffered.Within ⟨["7"], []⟩ 1 1 good.console := by
      rw [hconsole]
      exact ⟨by decide, by decide⟩
    obtain ⟨houtcome, -, hinner, -⟩ := hsame hwithin
    exact ⟨report, hreport, houtcome, hinner⟩
  · obtain ⟨report, hreport, -, hbroken⟩ := failing_console_truncates _ _ _ _ 0 1 _ hgood
    have hbeyond : ¬Buffered.Within ⟨["7"], []⟩ 0 1 good.console := by
      rw [hconsole]
      exact fun hwithin => absurd hwithin.1 (by decide)
    obtain ⟨failed, htruncated, -⟩ := hbroken hbeyond
    exact ⟨report, failed, hreport, htruncated⟩

end TokenScript
