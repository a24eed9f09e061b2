import TokenScript.Proofs.Relocation.Runs
import TokenScript.Proofs.Token.Joined

/-!
# Scripts one after another

Two scripts joined by a line feed are run like the first and then, from where it ends, the second.
The tokens of the joined script hold those of the first, a line end, and those of the second.

As long as the first script runs, the joined script runs side by side with it: the frames of the two
are moved by nothing, but the last one, which holds the rest of the script, ends later in the joined
script.  No look ahead crosses the line end between the scripts, unless to find the end of a block
that has none in the first script; but then the first script fails.  When the first script comes to
its end, the joined script stands at that line end; and from there on it runs side by side with the
second script, with all indices moved.

* `Machine.Joined`: a machine that runs the first script, and one that runs the joined script.
* `Machine.step_joined`, `Machine.crosses_of_run`: one step of the two, and a whole run of the
  first.
* `runSource_join`: two scripts joined by a line feed.
-/

namespace TokenScript

variable {σ : Type} [Console σ]

namespace Machine

variable {offset stop : Nat} {code other : Code}

/-- The rest of some code with other frames on top, and the same inside code that may go on, up to
`stop`. -/
inductive Joined (offset stop : Nat) (code other : Code) : Machine σ → Machine σ → Prop
  | mk {i j : Nat} {frames frames' : List Frame} {world world' : World σ} :
    List.Forall₂ (Frame.Moved False) frames frames' → IndexMoved code offset i j →
      world.Similar world' →
      Joined offset stop code other ⟨frames ++ [.block code i code.size], world⟩
        ⟨frames' ++ [.block other j stop], world'⟩

/-- What the second machine does when this is what a step of the first leads to.  While the first
runs, so does the second; the first comes to the end of its code, and then the second stands behind
that code; or both end early.  Nothing is said if the first fails. -/
def Beside (offset stop : Nat) (code other : Code) (machine : Machine σ) : Status σ → Prop
  | .running next =>
    (∃ next', machine.step = .running next' ∧ Joined offset stop code other next next') ∨
      next.frames = [] ∧ machine.frames = [.block other (code.size + offset) stop] ∧
        next.world.Similar machine.world
  | .halted (.done signal) final =>
    signal = .exit ∧
      ∃ final', machine.step = .halted (.done .exit) final' ∧ final.Similar final'
  | .halted (.failed _) _ => True
  | .halted .fault _ => True

theorem Beside.of_abort (machine : Machine σ) (abort : Abort) (final : World σ) :
    Beside offset stop code other machine (.halted abort.outcome final) := by
  cases abort <;> trivial

/-- A statement of the code that is not inside another one. -/
theorem beside_statement (hcode : Relocated False offset code other)
    (hstop : code.size + offset ≤ stop) {i j : Nat} (hj : j = i + offset) (hi : i < code.size)
    {world world' : World σ} (hworld : world.Similar world') :
    Beside offset stop code other ⟨[.block other j stop], world'⟩
      (step ⟨[.block code i code.size], world⟩) := by
  have hsize := hcode.size_le
  have hinside : j < stop ∧ j < other.size := by omega
  have hstep := step_block hinside [] world'
  rw [step_block ⟨hi, hi⟩]
  have hexecute := tracks_execute hcode hj hi world world' hworld
  revert hstep hexecute
  cases (Statement.execute code i).run world with
  | error abort final => exact fun _ _ => Beside.of_abort _ abort final
  | ok flow final =>
    cases (Statement.execute other j).run world' with
    | error abort' final' => exact fun _ hexecute => hexecute.elim
    | ok flow' final' =>
      rintro hstep ⟨hflow, hfinal⟩
      rcases hflow.frames hcode with ⟨rfl, rfl⟩ | ⟨k, l, hk, hl, hkl, hframes⟩
      · exact ⟨rfl, final', hstep, hfinal⟩
      · simp only [follow_eq hl] at hstep
        simp only [follow_eq hk]
        exact Or.inl ⟨_, hstep, .mk hframes hkl (hfinal.entered flow flow')⟩

/-- A step of frames on top of the rest of the code. -/
theorem beside_frames {i j : Nat} (hij : IndexMoved code offset i j) {frame frame' : Frame}
    {frames frames' : List Frame} (hframe : frame.Moved False frame')
    (hframes : List.Forall₂ (Frame.Moved False) frames frames') {world world' : World σ}
    (hworld : world.Similar world') :
    Beside offset stop code other ⟨frame' :: frames' ++ [.block other j stop], world'⟩
      (step ⟨frame :: frames ++ [.block code i code.size], world⟩) := by
  have hmoved :
      Status.Moved False (step ⟨frame :: frames, world⟩) (step ⟨frame' :: frames', world'⟩) :=
    step_moved ⟨.cons hframe hframes, hworld⟩
  have hstep := step_append frame' frames' [.block other j stop] world'
  rw [step_append]
  revert hmoved hstep
  cases hfirst : step ⟨frame :: frames, world⟩ with
  | running next =>
    cases step ⟨frame' :: frames', world'⟩ with
    | halted outcome' final' => exact fun hmoved => hmoved.elim
    | running next' =>
      intro hmoved hstep
      exact Or.inl ⟨_, hstep, .mk hmoved.frames hij hmoved.world⟩
  | halted outcome final =>
    cases outcome with
    | failed e => exact fun _ _ => trivial
    | fault => exact fun _ _ => trivial
    | done signal =>
      cases signal with
      | next => exact absurd rfl (ne_next_of_step_halted hfirst)
      | exit =>
        cases step ⟨frame' :: frames', world'⟩ with
        | running next' => exact fun hmoved => absurd rfl (hmoved.2 .exit)
        | halted outcome' final' =>
          intro hmoved hstep
          obtain ⟨houtcome, hfinal⟩ := hmoved (Or.inr ⟨_, rfl⟩)
          cases outcome' with
          | done signal' =>
            obtain rfl : Signal.exit = signal' := houtcome
            exact ⟨rfl, final', hstep, hfinal⟩
          | failed e => exact houtcome.elim
          | fault => exact houtcome.elim

/-- One step of the first machine. -/
theorem step_joined (hcode : Relocated False offset code other) (hstop : code.size + offset ≤ stop)
    {machine machine' : Machine σ} (h : Joined offset stop code other machine machine') :
    Beside offset stop code other machine' machine.step := by
  obtain @⟨i, j, frames, frames', world, world', hframes, hij, hworld⟩ := h
  cases hframes with
  | cons hframe hframes => exact beside_frames hij hframe hframes hworld
  | nil =>
    by_cases hlt : i < code.size
    · exact beside_statement hcode hstop hij.eq hlt hworld
    · obtain ⟨rfl, hinside⟩ := hij
      obtain rfl : i = code.size := Nat.le_antisymm hinside (Nat.le_of_not_lt hlt)
      have hout : ¬(code.size < code.size ∧ code.size < code.size) := by omega
      simp only [List.nil_append, step, if_neg hout]
      exact Or.inr ⟨rfl, rfl, hworld⟩

/-- Where a machine gets when another has ended with this signal: it comes to the frames, or it ends
too, in no more steps. -/
def Crosses (fuel : Nat) (machine : Machine σ) (frames : List Frame) (final : World σ) :
    Signal → Prop
  | .next => ∃ final', Reaches machine ⟨frames, final'⟩ ∧ final.Similar final'
  | .exit => ∃ final', run fuel machine = some (.done .exit, final') ∧ final.Similar final'

theorem Crosses.of_step {fuel : Nat} {machine next : Machine σ} {frames : List Frame}
    {final : World σ} {signal : Signal} (hstep : machine.step = .running next)
    (h : Crosses fuel next frames final signal) :
    Crosses (fuel + 1) machine frames final signal := by
  cases signal with
  | next =>
    obtain ⟨final', hreaches, hfinal⟩ := h
    exact ⟨final', hreaches.head hstep, hfinal⟩
  | exit =>
    obtain ⟨final', hrun, hfinal⟩ := h
    exact ⟨final', by rw [run, hstep]; exact hrun, hfinal⟩

/-- A whole run of the first machine that does not fail. -/
theorem crosses_of_run (hcode : Relocated False offset code other)
    (hstop : code.size + offset ≤ stop) {machine machine' : Machine σ}
    (hjoined : Joined offset stop code other machine machine') {fuel : Nat} {signal : Signal}
    {final : World σ} (h : run fuel machine = some (.done signal, final)) :
    Crosses fuel machine' [.block other (code.size + offset) stop] final signal := by
  induction fuel generalizing machine machine' with
  | zero => cases h
  | succ fuel ih =>
    have hstep := step_joined hcode hstop hjoined
    rw [run] at h
    revert h hstep
    cases machine.step with
    | running next =>
      rintro h (⟨next', hnext, hjoined'⟩ | ⟨hnil, hframes, hworld⟩)
      · exact .of_step hnext (ih hjoined' h)
      · obtain ⟨frames, world⟩ := next
        obtain ⟨frames', world'⟩ := machine'
        obtain rfl : frames = [] := hnil
        obtain rfl : frames' = [.block other (code.size + offset) stop] := hframes
        cases fuel with
        | zero => cases h
        | succ fuel =>
          obtain ⟨hdone, rfl⟩ := Prod.mk.inj (Option.some.inj h)
          obtain rfl := Outcome.done.inj hdone
          exact ⟨world', .refl, hworld⟩
    | halted outcome world =>
      intro h
      obtain ⟨rfl, rfl⟩ := Prod.mk.inj (Option.some.inj h)
      rintro ⟨rfl, final', hlast, hfinal⟩
      exact ⟨final', by rw [run, hlast], hfinal⟩

end Machine

/-! ## Joined scripts -/

section

variable {tokens others : Array Token} {again : List Token} {eol : Token}

/-- The first script stands at the start of the joined script. -/
theorem relocated_first (hkind : eol.kind = .newline) :
    Relocated False 0 (.program tokens) (.program (Token.join tokens eol again)) := by
  refine ⟨fun index hindex => ?_, Or.inr ⟨not_false, eol, ?_, hkind⟩⟩
  · exact congrArg (Option.map Token.shape) (Token.getElem?_join_of_lt hindex eol again)
  · exact Token.getElem?_join_size tokens eol again

/-- The second script stands at its end. -/
theorem relocated_second (hshape : again.map Token.shape = others.toList.map Token.shape) :
    Relocated True (tokens.size + 1) (.program others)
      (.program (Token.join tokens eol again)) := by
  refine ⟨fun index _ => ?_, Or.inl ?_⟩
  · have hget := congrArg (·[index]?) hshape
    simp only [List.getElem?_map, Array.getElem?_toList] at hget
    simp only [Code.program, Token.getElem?_join_behind, hget]
  · have hlength : again.length = others.size := by
      simpa using congrArg List.length hshape
    simp only [Code.program, Code.size, Token.size_join]
    omega

end

namespace Context

variable {context : Context} {console : σ} {tokens : Array Token}

/-- The world in which the run of a program ends that has a report. -/
theorem exists_run_of_runTokens {fuel : Nat} {journal : Journal} {report : Report σ}
    (h : context.runTokens fuel console journal tokens = some report) :
    ∃ final, Machine.run fuel
        (.start (.program tokens) ⟨0, tokens.size⟩
          { context.world console (journal.note (.runStarted tokens.size)) with closes := none }) =
        some (report.outcome, final) ∧
      report.context = final.context ∧ report.console = final.console := by
  have hshown := runTokens_shown fuel context console journal tokens
  rw [h, Option.map_some, eq_comm] at hshown
  obtain ⟨⟨outcome, final⟩, hrun, heq⟩ := Option.map_eq_some_iff.1 hshown
  simp only [Prod.mk.injEq] at heq
  obtain ⟨rfl, hcontext, hconsole⟩ := heq
  exact ⟨final, hrun, hcontext.symm, hconsole.symm⟩

/-- The joined script goes as far as the first one that does not fail. -/
theorem crosses_of_runTokens {eol : Token} (hkind : eol.kind = .newline) (again : List Token)
    {fuel : Nat} {journal : Journal} {signal : Signal} {report : Report σ}
    (h : context.runTokens fuel console journal tokens = some report)
    (hsignal : report.outcome = .done signal) (journal' : Journal) :
    ∃ final : World σ, report.context = final.context ∧ report.console = final.console ∧
      Machine.Crosses fuel
        (.start (.program (Token.join tokens eol again)) ⟨0, (Token.join tokens eol again).size⟩
          { context.world console journal' with closes := none })
        [.block (.program (Token.join tokens eol again)) tokens.size
          (Token.join tokens eol again).size] final signal := by
  obtain ⟨final, hrun, hcontext, hconsole⟩ := exists_run_of_runTokens h
  rw [hsignal] at hrun
  have hcode : Relocated False 0 (.program tokens) (.program (Token.join tokens eol again)) :=
    relocated_first hkind
  refine ⟨final, hcontext, hconsole, Machine.crosses_of_run hcode hcode.size_le ?_ hrun⟩
  exact .mk .nil ⟨rfl, Nat.zero_le _⟩ ((Similar.refl context).scanning console _ _)

/-- When the first script has come to its end, the joined script goes on like the second. -/
theorem runTokens_join_next {others : Array Token} {eol : Token} {again : List Token}
    (hkind : eol.kind = .newline) (hshape : again.map Token.shape = others.toList.map Token.shape)
    {fuel : Nat} {journal : Journal} {report : Report σ}
    (h : context.runTokens fuel console journal tokens = some report)
    (hnext : report.outcome = .done .next) (journal' journal'' : Journal) :
    ∃ steps, ∀ more, Option.Rel Report.Similar
      (report.context.runTokens more report.console journal' others)
      (context.runTokens (steps + more) console journal'' (Token.join tokens eol again)) := by
  have hsecond : Relocated True (tokens.size + 1) (.program others)
      (.program (Token.join tokens eol again)) := relocated_second hshape
  have hsize : (Token.join tokens eol again).size = others.size + (tokens.size + 1) := by
    rw [Token.size_join, show again.length = others.size by simpa using congrArg List.length hshape]
    omega
  obtain ⟨final, hcontext, hconsole, final', hreaches, hfinal⟩ :=
    crosses_of_runTokens hkind again h hnext
      (journal''.note (.runStarted (Token.join tokens eol again).size))
  -- the line end between the scripts
  have heol : (Code.program (Token.join tokens eol again)).tokens[tokens.size]? =
      some (Program.Mark.newline ⟨eol.lexeme, eol.span⟩) := by
    rw [Program.Mark.newline, ← hkind]
    exact Token.getElem?_join_size tokens eol again
  have hstep :=
    Program.step_newline heol (show tokens.size < (Token.join tokens eol again).size by omega)
    [] final'
  obtain ⟨steps, hsteps⟩ := Machine.Reaches.exists_run_eq (hreaches.tail hstep)
  refine ⟨steps, fun more => ?_⟩
  refine reports_similar (runTokens_shown ..) (runTokens_shown ..) ?_
  rw [hsteps more]
  have hcursor : tokens.size + 1 = 0 + (tokens.size + 1) := (Nat.zero_add _).symm
  refine Machine.run_moved ⟨.cons (.block hsecond hcursor hsize (Nat.le_refl _)) .nil, ?_⟩ more
  exact ⟨hcontext ▸ hfinal.context, hconsole ▸ hfinal.console, rfl, hfinal.scans'⟩

/-- When the first script has asked for the end, so has the joined script. -/
theorem runTokens_join_exit {eol : Token} (hkind : eol.kind = .newline) (again : List Token)
    {fuel : Nat} {journal : Journal} {report : Report σ}
    (h : context.runTokens fuel console journal tokens = some report)
    (hexit : report.outcome = .done .exit) (journal' : Journal) :
    ∃ joined, context.runTokens fuel console journal' (Token.join tokens eol again) = some joined ∧
      report.Similar joined := by
  obtain ⟨final, hcontext, hconsole, final', hend, hfinal⟩ :=
    crosses_of_runTokens hkind again h hexit
      (journal'.note (.runStarted (Token.join tokens eol again).size))
  have hshown := runTokens_shown fuel context console journal' (Token.join tokens eol again)
  rw [hend, Option.map_some] at hshown
  obtain ⟨joined, hjoined, heq⟩ := Option.map_eq_some_iff.1 hshown
  simp only [Prod.mk.injEq] at heq
  obtain ⟨houtcome, hcontext', hconsole'⟩ := heq
  refine ⟨joined, hjoined, ?_, ?_, ?_⟩
  · rw [hexit, houtcome]
    rfl
  · rw [hcontext, hcontext']
    exact hfinal.context
  · rw [hconsole, hconsole']
    exact hfinal.console

end Context

/-- **Scripts can be run one after another.**  Take two source texts that are read, a context and a
console, and let the first text be run.

* If it comes to its end, then the text that joins the two by a line feed is run like the second
  text in the context and with the console that the first leaves: from some number of steps on, the
  one run has ended just if the other has, and then their reports are equal up to places.
* If it asks for the end, the joined text ends too in as many steps, with a report that is equal up
  to places; the second text has no part in it. -/
theorem runSource_join {first second : String} {tokens others : Array Token}
    (hfirst : tokenize first = .ok tokens) (hsecond : tokenize second = .ok others)
    {fuel : Nat} {context : Context} {console : σ} {journal : Journal} {report : Report σ}
    (hrun : context.runSource fuel console journal first = some report) :
    (report.outcome = .done .next → ∀ journal' journal'' : Journal, ∃ steps, ∀ more,
      Option.Rel Report.Similar (report.context.runSource more report.console journal' second)
        (context.runSource (steps + more) console journal'' (first ++ "\n" ++ second))) ∧
    (report.outcome = .done .exit → ∀ journal' : Journal, ∃ joined,
      context.runSource fuel console journal' (first ++ "\n" ++ second) = some joined ∧
        report.Similar joined) := by
  obtain ⟨eol, again, hkind, hshape, hjoined⟩ := exists_tokenize_join hfirst hsecond
  simp only [Context.runSource, hfirst, hsecond, hjoined] at hrun ⊢
  refine ⟨fun hnext journal' journal'' => ?_, fun hexit journal' => ?_⟩
  · exact Context.runTokens_join_next hkind hshape hrun hnext _ _
  · exact Context.runTokens_join_exit hkind again hrun hexit _

/-- The tokens of `exit`. -/
def exitLine : Array Token := #[⟨.keyword .exit, "exit", ⟨1, 0⟩⟩]

/-- The tokens of `input x`. -/
def inputLine : Array Token :=
  #[⟨.keyword .input, "input", ⟨1, 0⟩⟩, ⟨.identifier "x", "x", ⟨1, 6⟩⟩]

theorem tokenize_exitLine : tokenize "exit" = .ok exitLine := by
  have hword : Lexeme.next? ['e', 'x', 'i', 't'] = some (.keyword, ['e', 'x', 'i', 't'], []) := by
    decide
  have hkind : Lexeme.tokenKind .keyword ['e', 'x', 'i', 't'] = .ok (some (.keyword .exit)) := by
    decide
  show Token.scan ['e', 'x', 'i', 't'] Span.start #[] = _
  simp only [Token.scan_next hword, hkind]
  rw [Token.scan]
  rfl

theorem tokenize_inputLine : tokenize "input x" = .ok inputLine := by
  have hword : Lexeme.next? ['i', 'n', 'p', 'u', 't', ' ', 'x'] =
      some (.keyword, ['i', 'n', 'p', 'u', 't'], [' ', 'x']) := by
    decide
  have hkind :
      Lexeme.tokenKind .keyword ['i', 'n', 'p', 'u', 't'] = .ok (some (.keyword .input)) := by
    decide
  have hblank : Lexeme.next? [' ', 'x'] = some (.blank, [' '], ['x']) := by
    decide
  have hname : Lexeme.next? ['x'] = some (.identifier, ['x'], []) := by
    decide
  show Token.scan ['i', 'n', 'p', 'u', 't', ' ', 'x'] Span.start #[] = _
  simp only [Token.scan_next hword, hkind]
  simp only [Token.scan_next hblank, Token.scan_next hname, Lexeme.tokenKind]
  rw [Token.scan]
  rfl

/-- A script that reads a line goes on with the script after it; a script that asks for the end does
not. -/
theorem runSource_join_inputLine :
    (∃ report : Report Console.Buffered,
      (Context.fresh 1).runSource 3 ⟨["7"], []⟩ .silent "input x" = some report ∧
      report.outcome = .done .next ∧ report.console = ⟨[], [.prompt "Enter value for x: "]⟩ ∧
      ∃ steps, ∀ more, Option.Rel Report.Similar
        (report.context.runSource more report.console .silent "exit")
        ((Context.fresh 1).runSource (steps + more) ⟨["7"], []⟩ .silent
          ("input x" ++ "\n" ++ "exit"))) ∧
    ∃ report joined : Report Console.Buffered,
      (Context.fresh 1).runSource 1 ⟨["7"], []⟩ .silent "exit" = some report ∧
      (Context.fresh 1).runSource 1 ⟨["7"], []⟩ .silent ("exit" ++ "\n" ++ "input x") =
        some joined ∧
      report.outcome = .done .exit ∧ joined.console = ⟨["7"], []⟩ ∧ report.Similar joined := by
  constructor
  · obtain ⟨report, hrun, houtcome, hconsole⟩ : ∃ report : Report Console.Buffered,
        (Context.fresh 1).runSource 3 ⟨["7"], []⟩ .silent "input x" = some report ∧
        report.outcome = .done .next ∧
        report.console = ⟨[], [.prompt "Enter value for x: "]⟩ := by
      simp only [Context.runSource, tokenize_inputLine]
      exact ⟨_, rfl, rfl, rfl⟩
    refine ⟨report, hrun, houtcome, hconsole, ?_⟩
    exact (runSource_join tokenize_inputLine tokenize_exitLine hrun).1 houtcome .silent .silent
  · obtain ⟨report, hrun, houtcome, hconsole⟩ : ∃ report : Report Console.Buffered,
        (Context.fresh 1).runSource 1 ⟨["7"], []⟩ .silent "exit" = some report ∧
        report.outcome = .done .exit ∧ report.console = ⟨["7"], []⟩ := by
      simp only [Context.runSource, tokenize_exitLine]
      exact ⟨_, rfl, rfl, rfl⟩
    obtain ⟨joined, hjoined, hsimilar⟩ :=
      (runSource_join tokenize_exitLine tokenize_inputLine hrun).2 houtcome .silent
    exact ⟨report, joined, hrun, hjoined, houtcome, hsimilar.console ▸ hconsole, hsimilar⟩

end TokenScript
