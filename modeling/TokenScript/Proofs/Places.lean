import TokenScript.Proofs.Form
import TokenScript.Proofs.Relocation.Joined

/-!
# Errors stand at tokens

An error is reported at a place, and the places come from all over the library: from the token that
is in the way, from the last token when the code ends too early, from the word whose block has no
end, from the name that is called.  There is also a place that lies nowhere, for want of a token.
This file shows that the only errors of a run that stand nowhere are those of the console; every
other stands at a token of the program, even if it is raised in the body of a function, which is a
copy of some of these tokens.

Two facts make this up.  What is wrong with a statement stands at a token of its code, and so does a
call that is one too many.  And all code that a run can come to was cut out of the program.

* `Error.Placed`: where an error may stand.
* `Code.Malformed.exists_mem`, `placed_execute`: errors of statements.
* `Machine.Cut`: all code of a machine was cut out of the program.
* `Machine.Cut.next`, `Machine.Cut.last`: steps keep this.
-/

namespace TokenScript

variable {σ : Type}

/-- The error stands at one of these tokens, or it is about the console and stands nowhere. -/
def Error.Placed (e : Error) (tokens : Array Token) : Prop :=
  e.kind = .console ∧ e.span = .nowhere ∨ ∃ t ∈ tokens, t.span = e.span

/-- All tokens of the code are among these. -/
def Code.CutFrom (code : Code) (tokens : Array Token) : Prop := ∀ t ∈ code.tokens, t ∈ tokens

/-- All bodies that are stored were cut out of these tokens. -/
def Context.CutFrom (context : Context) (tokens : Array Token) : Prop :=
  ∀ name body, context.functions.get? name = some body → body.CutFrom tokens

theorem Error.Placed.mono {e : Error} {code : Code} {tokens : Array Token}
    (h : e.Placed code.tokens) (hcut : code.CutFrom tokens) : e.Placed tokens :=
  h.imp_right fun ⟨t, ht, hspan⟩ => ⟨t, hcut t ht, hspan⟩

/-! ## Errors of statements -/

namespace Code

variable {code : Code} {start : Nat} {e : Error}

/-- What is missing is missed at a token, unless there are none. -/
theorem exists_mem_refusal (hsize : 0 < code.size) (index : Nat)
    (cause : Option String → StructuralCause) :
    ∃ t ∈ code.tokens, t.span = (code.refusal index cause).span := by
  unfold refusal
  cases ht : code.tokens[index]? with
  | some t => exact ⟨t, Array.mem_of_getElem? ht, rfl⟩
  | none =>
    cases hback : code.tokens.back? with
    | some t => exact ⟨t, Array.mem_of_back? hback, rfl⟩
    | none => exact absurd (Array.back?_eq_none_iff.1 hback) (Array.ne_empty_of_size_pos hsize)

theorem ChainsTo.exists_mem {words : List Keyword} (h : code.ChainsTo start words (.error e)) :
    ∃ t ∈ code.tokens, t.span = e.span := by
  rcases h with ⟨-, next, t, -, ht, rfl⟩ | ⟨-, -, last, t, -, -, ht, rfl⟩ <;>
    exact ⟨t, Array.mem_of_getElem? ht, rfl⟩

/-- What is wrong with a statement stands at a token of its code. -/
theorem Malformed.exists_mem (h : code.Malformed start e) : ∃ t ∈ code.tokens, t.span = e.span := by
  obtain ⟨word, hword⟩ := h.exists_word
  have hsize : 0 < code.size := Nat.zero_lt_of_lt (lt_size_of_wordAt? hword)
  cases h with
  | name | inWord | toWord | firstBound | lastBound => exact exists_mem_refusal hsize _ _
  | functionName _ _ ht =>
    rcases Option.or_eq_some_iff.1 ht with ht | ⟨-, ht⟩ <;> exact ⟨_, Array.mem_of_getElem? ht, rfl⟩
  | functionEnd _ _ _ ht => exact ⟨_, Array.mem_of_getElem? ht, rfl⟩
  | ifClauses _ hchain | whileClauses _ hchain | forClauses _ _ hchain => exact hchain.exists_mem

/-- A call stands at a token of the code. -/
theorem exists_mem_call? {name : String} {span : Span} (h : code.call? start = some (name, span)) :
    ∃ t ∈ code.tokens, t.span = span := by
  unfold call? at h
  split at h
  · cases h
  · next t ht =>
    split at h
    · split at h
      · cases h
      · obtain ⟨-, rfl⟩ := Prod.mk.inj (Option.some.inj h)
        exact ⟨t, Array.mem_of_getElem? ht, rfl⟩
    · obtain ⟨u, hu, hnamed⟩ := Option.bind_eq_some_iff.1 h
      obtain ⟨other, -, heq⟩ := Option.map_eq_some_iff.1 hnamed
      obtain ⟨-, rfl⟩ := Prod.mk.inj heq
      exact ⟨u, Array.mem_of_getElem? hu, rfl⟩
    · cases h

end Code

variable [Console σ]

/-- A statement fails at a token of its code, or because of the console. -/
theorem placed_execute {code : Code} {start : Nat} {world final : World σ} {e : Error}
    (htrusts : world.Trusts code) (hstart : start < code.size)
    (hrun : (Statement.execute code start).run world = .error (.error e) final) :
    e.Placed code.tokens := by
  -- the reasons of a statement in general do not tell the places of its form, but what is wrong
  -- with it does
  by_cases hkind : e.kind = .structural ∨ e.kind = .block
  · exact Or.inr (malformed_of_run_eq htrusts hrun hkind).exists_mem
  · have hdoes := does_execute hstart world
    rw [hrun] at hdoes
    cases hdoes with
    | refused hcall hget hlimit => exact Or.inr (Code.exists_mem_call? hcall)
    | abandoned hdeeds hhalts =>
      cases hhalts with
      | form => exact absurd (Or.inl rfl) hkind
      | block hclose => exact absurd (Or.inr (BlockPolicy.kind_of_close hclose)) hkind
      | read | write => exact Or.inl ⟨rfl, rfl⟩

namespace Machine

/-- A step fails at a token of the code in its frames, or because of the console. -/
theorem placed_step {machine : Machine σ} {e : Error} {final : World σ} {tokens : Array Token}
    (h : machine.step = .halted (.failed e) final) (hscans : machine.world.closes = none)
    (hcut : ∀ frame ∈ machine.frames, ∀ code, frame.code? = some code → code.CutFrom tokens) :
    e.Placed tokens := by
  obtain ⟨frames, world⟩ := machine
  cases frames with
  | nil => cases h
  | cons frame rest =>
    have hcode : ∀ code, frame.code? = some code → code.CutFrom tokens :=
      hcut frame List.mem_cons_self
    cases frame with
    | call => cases h
    | count code name first last next loop =>
      simp only [step] at h
      split at h <;> cases h
    | retest code condition loop rounds =>
      -- a condition that fails is reported, so only the console can stop its evaluation
      have hspeaks : Speaks world (Action.evaluate code condition) _ _ :=
        speaks_evaluate condition rfl
      unfold Speaks at hspeaks
      simp only [step] at h
      cases hevaluate : (Action.evaluate code condition).run world with
      | ok value middle =>
        rw [hevaluate] at h
        dsimp only at h
        split at h <;> cases h
      | error abort middle =>
        rw [hevaluate] at h hspeaks
        obtain ⟨reason, rfl, -⟩ := hspeaks
        obtain ⟨⟨⟩, -⟩ := Status.halted.inj h
        exact Or.inl ⟨rfl, rfl⟩
    | block code cursor stop =>
      by_cases hinside : cursor < stop ∧ cursor < code.size
      · rw [step_block hinside] at h
        cases hrun : (Statement.execute code cursor).run world with
        | ok flow middle =>
          rw [hrun] at h
          cases flow <;> cases h
        | error abort middle =>
          rw [hrun] at h
          obtain ⟨houtcome, -⟩ := Status.halted.inj h
          cases abort with
          | fault => cases houtcome
          | error other =>
            obtain rfl := Outcome.failed.inj houtcome
            exact (placed_execute (World.trusts_of_scans hscans code) hinside.2 hrun).mono
              (hcode code rfl)
      · simp only [step, if_neg hinside] at h
        cases h

end Machine

/-! ## Code cut out of the program -/

section

variable {code : Code} {tokens : Array Token} {world final : World σ}

omit [Console σ] in
theorem World.functions_unwind (world : World σ) (frames : List Frame) :
    (world.unwind frames).context.functions = world.context.functions :=
  world.apply_unwind (f := fun world => world.context.functions) (fun _ => rfl) frames

/-- What the code stores is cut out of the code. -/
theorem Deeds.cutFrom (h : Deeds code world final) (hcode : code.CutFrom tokens)
    (hworld : world.context.CutFrom tokens) : final.context.CutFrom tokens := by
  induction h with
  | refl => exact hworld
  | tail _ hlast ih =>
    cases hlast with
    | define name start stop =>
      intro other body hget
      rcases FunctionTable.stored_cases hget with ⟨-, rfl⟩ | ⟨-, hold⟩
      · intro t ht
        rw [← Array.mem_toList_iff, Array.toList_extract, List.extract_eq_take_drop] at ht
        exact hcode t (Array.mem_toList_iff.1 (List.mem_of_mem_drop (List.mem_of_mem_take ht)))
      · exact ih other body hold
    | note | assign | remember | read | write => exact ih

/-- All code that the machine can come to was cut out of these tokens. -/
structure Machine.Cut (tokens : Array Token) (machine : Machine σ) : Prop where
  frames : ∀ frame ∈ machine.frames, ∀ code, frame.code? = some code → code.CutFrom tokens
  functions : machine.world.context.CutFrom tokens

namespace Machine.Cut

variable {machine later : Machine σ}

theorem next (h : machine.Cut tokens) (htakes : Takes machine (.running later)) :
    later.Cut tokens := by
  cases htakes with
  | returned rest world => exact ⟨(List.forall_mem_cons.1 h.frames).2, h.functions⟩
  | worked code extra hframe hdeeds hextra =>
    obtain ⟨htop, hrest⟩ := List.forall_mem_cons.1 h.frames
    refine ⟨fun frame hmem other hother => ?_, hdeeds.cutFrom (htop code hframe) h.functions⟩
    rcases List.mem_append.1 hmem with hmem | hmem
    · rw [hextra frame hmem] at hother
      exact htop other (hframe.trans hother)
    · exact hrest frame hmem other hother
  | called hcall hget hdepth =>
    obtain ⟨htop, hrest⟩ := List.forall_mem_cons.1 h.frames
    refine ⟨?_, h.functions⟩
    simp only [List.forall_mem_cons]
    refine ⟨?_, nofun, htop, hrest⟩
    rintro other ⟨⟩
    exact h.functions _ _ hget

/-- At the end of a run, too, what is stored was cut out of the program. -/
theorem last {outcome : Outcome} (h : machine.Cut tokens)
    (htakes : Takes machine (.halted outcome final)) :
    final.context.CutFrom tokens := by
  have hunwind : ∀ {world : World σ} (frames : List Frame), world.context.CutFrom tokens →
      (world.unwind frames).context.CutFrom tokens := by
    intro world frames hworld name body hget
    rw [World.functions_unwind] at hget
    exact hworld name body hget
  cases htakes with
  | finished => exact h.functions
  | refused => exact hunwind _ h.functions
  | exited hframe hdeeds =>
    exact hunwind _ (hdeeds.cutFrom (h.frames _ List.mem_cons_self _ hframe) h.functions)
  | abandoned hframe hdeeds hhalts =>
    refine hunwind _ ?_
    rw [hhalts.context]
    exact hdeeds.cutFrom (h.frames _ List.mem_cons_self _ hframe) h.functions

theorem reaches (h : machine.Cut tokens) (hreaches : Reaches machine later) :
    later.Cut tokens :=
  hreaches.invariant h fun _ _ hnow htakes => hnow.next htakes

omit [Console σ] in
/-- A program is cut out of itself. -/
theorem start (tokens : Array Token) {context : Context}
    (hempty : ∀ name, context.functions.get? name = none) {world : World σ}
    (hworld : world.context = context) (extent : Extent) :
    (Machine.start (.program tokens) extent world).Cut tokens := by
  refine ⟨?_, fun name body hget => ?_⟩
  · intro frame hframe code hcode
    obtain rfl := List.mem_singleton.1 hframe
    cases hcode
    exact fun t ht => ht
  · have hcontext : (Machine.start (.program tokens) extent world).world.context = context := hworld
    rw [hcontext, hempty] at hget
    cases hget

end Machine.Cut

end

/-! ## Runs -/

theorem eq_ok_of_toOption {ε α : Type} {x : Except ε α} {u : α} (h : x.toOption = some u) :
    x = .ok u := by
  cases x with
  | error e => cases h
  | ok v => exact congrArg Except.ok (Option.some.inj h)

/-- A source text runs as its tokens do in a world that scans for every close. -/
theorem Context.exists_runSource {context : Context} {console : σ} {journal : Journal}
    {source : String} {tokens : Array Token} (htokens : tokenize source = .ok tokens) {fuel : Nat}
    {outcome : Outcome} {final : World σ}
    (hrun : Machine.run fuel (.start (.program tokens) ⟨0, tokens.size⟩
      { context.world console ((journal.note (.tokenized tokens.size (lineCount source))).note
          (.runStarted tokens.size)) with closes := none }) = some (outcome, final)) :
    ∃ report, context.runSource fuel console journal source = some report ∧
      report.outcome = outcome ∧
      report.context = final.context ∧ report.console = final.console := by
  have hshown := runTokens_shown fuel context console
    (journal.note (.tokenized tokens.size (lineCount source))) tokens
  rw [hrun, Option.map_some] at hshown
  obtain ⟨report, hreport, heq⟩ := Option.map_eq_some_iff.1 hshown
  simp only [Prod.mk.injEq] at heq
  refine ⟨report, ?_, heq⟩
  rw [runSource, htokens]
  exact hreport

/-- **Every error stands at a token.**  Take a context without functions, a console, and a source
that has tokens.  A run of the source never ends with a fault.  If it fails, then because of the
console, and the error stands nowhere, or the error stands at one of the tokens.  At the end of the
run and at each moment before, all tokens of the bodies that are stored are tokens of the source. -/
theorem errors_stand_at_tokens {context : Context}
    (hempty : ∀ name, context.functions.get? name = none) (console : σ) (journal : Journal)
    {source : String} {tokens : Array Token} (htokens : tokenize source = .ok tokens) :
    (∀ fuel report, context.runSource fuel console journal source = some report →
      report.outcome ≠ .fault ∧ (∀ e, report.outcome = .failed e → e.Placed tokens) ∧
        report.context.CutFrom tokens) ∧
    ∀ later, Machine.Reaches
        (context.machine console (journal.note (.tokenized tokens.size (lineCount source))) tokens)
          later →
      later.world.context.CutFrom tokens := by
  constructor
  · intro fuel report hrun
    simp only [Context.runSource, htokens] at hrun
    obtain ⟨final, hmachine, hfinal, -⟩ := Context.exists_run_of_runTokens hrun
    obtain ⟨last, hreaches, hstep⟩ := Machine.exists_reaches_of_run hmachine
    have hcut := (Machine.Cut.start tokens hempty rfl _).reaches hreaches
    have htakes := last.takes_step
    rw [hstep] at htakes
    refine ⟨Context.ne_fault_of_runTokens hrun, fun e he => ?_, hfinal ▸ hcut.last htakes⟩
    rw [he] at hstep
    exact Machine.placed_step hstep (Machine.scans_of_reaches hreaches rfl) hcut.frames
  · intro later hreaches
    exact ((Machine.Cut.start tokens hempty rfl _).reaches hreaches).functions

/-- The body of the function ends where `input` needs a name. -/
def shortBody : String := "func f\ninput leave\nf"

/-- The error is raised at the end of the body, and stands at the last token there. -/
theorem errors_stand_at_tokens_shortBody :
    ∃ tokens report, tokenize shortBody = .ok tokens ∧
      (Context.fresh 1).runSource 5 (⟨[], []⟩ : Console.Buffered) .silent shortBody = some report ∧
      report.outcome = .failed ⟨.structural (.nameExpected .input none), ⟨2, 0⟩⟩ ∧
      ∃ t ∈ tokens, t.span = ⟨2, 0⟩ := by
  have hcomputed : (tokenize shortBody).toOption.bind (fun tokens =>
      (Machine.run 5 (.start (.program tokens) ⟨0, tokens.size⟩
        { (Context.fresh 1).world (⟨[], []⟩ : Console.Buffered)
          ((Journal.silent.note (.tokenized tokens.size (lineCount shortBody))).note
            (.runStarted tokens.size)) with closes := none })).map Prod.fst) =
      some (.failed ⟨.structural (.nameExpected .input none), ⟨2, 0⟩⟩) := by decide +kernel
  obtain ⟨tokens, hfound, hrun⟩ := Option.bind_eq_some_iff.1 hcomputed
  have htokens : tokenize shortBody = .ok tokens := eq_ok_of_toOption hfound
  obtain ⟨⟨outcome, final⟩, hmachine, rfl⟩ := Option.map_eq_some_iff.1 hrun
  obtain ⟨report, hsource, houtcome, -⟩ := Context.exists_runSource htokens hmachine
  have hempty : ∀ name, (Context.fresh 1).functions.get? name = none := FunctionTable.get?_empty
  obtain ⟨-, hplaced, -⟩ := (errors_stand_at_tokens hempty _ _ htokens).1 5 report hsource
  rcases hplaced _ houtcome with ⟨hconsole, -⟩ | hplaced
  · cases hconsole
  · exact ⟨tokens, report, htokens, hsource, houtcome, hplaced⟩

end TokenScript
