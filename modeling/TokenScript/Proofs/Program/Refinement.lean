import TokenScript.Interpreter
import TokenScript.Proofs.Frames
import TokenScript.Proofs.Memo.Invisible
import TokenScript.Proofs.Program.Heads

/-!
# Running the tokens of a program is running the program

The machine finds its way through the tokens of a program by indices, and the meaning of a program
is given by its tree.  The two agree: frames that hold a task come to an end exactly if the task
does, with the same outcome, and then the world mirrors the state in which the task ended.

From trees to tokens this is an induction over the rules of `Runs`, and from tokens to trees an
induction over the number of steps.  Both rest on the same three facts, which say what a single step
does to a frame that holds a task.  They speak of worlds that remember no closes; that the memory is
invisible carries the result over to the runs that there are.

* `step_newline`, `step_statement`, `step_retest`, `step_count`: single steps.
* `Runs.ends`: from trees to tokens.
* `sound`: from tokens to trees.
* `runRange_runs`: whole programs.
-/

namespace TokenScript.Program

open Machine

variable {σ : Type} [Console σ]

/-! ## Single steps -/

omit [Console σ] in
/-- The first statement of a block, the line end after it, and the other statements. -/
theorem holds_cons {code : Code} {start stop : Nat} {statement : Statement} {eol : Mark}
    {rest : Block} (h : code.Holds start (Block.cons statement eol rest).tokens)
    (hstop : start + (Block.cons statement eol rest).tokens.length = stop) :
    code.Holds start statement.tokens ∧
      code.tokens[start + statement.tokens.length]? = some eol.newline ∧ start < stop ∧
      Stands (.block rest) [.block code (start + statement.tokens.length) stop] := by
  simp only [Block.tokens, Code.Holds.append_iff, List.length_append, List.length_cons] at h hstop
  refine ⟨h.1, h.2.1, by omega, Stands.body h.2 ?_⟩
  simp only [Body.tokens, List.length_cons]
  omega

theorem step_newline {code : Code} {start stop : Nat} {eol : Mark}
    (ht : code.tokens[start]? = some eol.newline) (hlt : start < stop) (rest : List Frame)
    (world : World σ) :
    step ⟨.block code start stop :: rest, world⟩ =
      .running ⟨.block code (start + 1) stop :: rest, world⟩ := by
  have hsize : start < code.size := (Array.getElem?_eq_some_iff.1 ht).1
  have hexecute : (Statement.execute code start).run world = .ok (.advance (start + 1)) world := by
    rw [Statement.execute, Action.tokenAt, ht]
    rfl
  simp only [step, if_pos (And.intro hlt hsize), hexecute]
  rfl

/-- What a step makes of the first statement of a block, when the head of the statement has this
result: it halts, or goes on with the task that is left and the frames below. -/
def Performs (status : Status σ) (below : List Frame) :
    EStateM.Result Error (State σ) Task → Prop
  | .error e state => ∃ final, Mirrors final state ∧ status = .halted (.failed e) final
  | .ok task state => ∃ final, Mirrors final state ∧
    ((task = .exit ∧ status = .halted (.done .exit) final) ∨
      ∃ frames, Stands task frames ∧ status = .running ⟨frames ++ below, final⟩)

theorem step_statement {code : Code} {start stop : Nat} {statement : Statement} {eol : Mark}
    {world : World σ} {state : State σ} (h : code.Holds start statement.tokens)
    (heol : code.tokens[start + statement.tokens.length]? = some eol.newline) (hlt : start < stop)
    (hab : Mirrors world state) :
    Performs (step ⟨[.block code start stop], world⟩)
      [.block code (start + statement.tokens.length) stop] (statement.head.run state) := by
  have hsize : start < code.size :=
    Nat.lt_of_le_of_lt (Nat.le_add_right _ _) (Array.getElem?_eq_some_iff.1 heol).1
  have hexecute := follows_execute (σ := σ) h heol world state hab
  simp only [step, if_pos (And.intro hlt hsize)]
  revert hexecute
  cases (TokenScript.Statement.execute code start).run world <;>
    cases statement.head.run state <;> intro hexecute
  case ok.ok flow final task state' =>
    obtain ⟨⟨rfl, rfl⟩ | ⟨hnext, hstands⟩, hfinal⟩ := hexecute
    · exact ⟨final, hfinal, Or.inl ⟨rfl, rfl⟩⟩
    · exact ⟨flow.entered final, hfinal.entered flow,
        Or.inr ⟨_, hstands, follow_eq hnext code stop [] final⟩⟩
  case ok.error => exact False.elim hexecute
  case error.ok => exact False.elim hexecute
  case error.error abort final e state' =>
    obtain ⟨rfl, hfinal⟩ := hexecute
    exact ⟨final, hfinal, rfl⟩

/-- What a step makes of a loop, when its condition has this value: it halts, starts a round, or
goes on with the `else` clause. -/
def Tests (status : Status σ) (round otherwise : List Frame) :
    EStateM.Result Error (State σ) Value → Prop
  | .error e state => ∃ final, Mirrors final state ∧ status = .halted (.failed e) final
  | .ok value state => ∃ final, Mirrors final state ∧
    status = .running ⟨if value.isTruthy then round else otherwise, final⟩

theorem step_retest {code : Code} {start : Nat} {condition : Run} {body : Body} {ending : Ending}
    {world : World σ} {state : State σ}
    (h : code.Holds start (condition.tokens ++ (body.tokens ++ ending.tokens)))
    (hab : Mirrors world state) (line rounds : Nat) :
    let loop := loopAt line (start + condition.tokens.length) body ending
    Tests (step ⟨[.retest code start loop rounds], world⟩)
      ([blockFrame code loop.body] ++ [.retest code start loop (rounds + 1)]) (elseFrames code loop)
      ((Effect.evaluate condition).run state) := by
  intro loop
  simp only [Code.Holds.append_iff] at h
  obtain ⟨eol, heol, hbearing⟩ := holds_body h.2.1
  have hevaluate := follows_evaluate (σ := σ) h.1 heol hbearing world state hab
  simp only [step]
  revert hevaluate
  cases (Action.evaluate code start).run world <;>
    cases (Effect.evaluate condition).run state <;> intro hevaluate
  case ok.ok value final other state' =>
    obtain ⟨rfl, hfinal⟩ := hevaluate
    cases htruthy : value.isTruthy with
    | true =>
      refine ⟨final, hfinal, ?_⟩
      simp only [htruthy, if_true, List.singleton_append]
    | false =>
      refine ⟨_, hfinal.note (.whileFinished loop.line rounds), ?_⟩
      simp only [htruthy, Bool.false_eq_true, if_false, List.append_nil]
  case ok.error => exact False.elim hevaluate
  case error.ok => exact False.elim hevaluate
  case error.error abort final e state' =>
    obtain ⟨rfl, hfinal⟩ := hevaluate
    exact ⟨final, hfinal, rfl⟩

theorem step_count {code : Code} {name : String} {first last next : Int} {loop : Loop}
    (hle : next ≤ last) (world : World σ) :
    step ⟨[.count code name first last next loop], world⟩ =
      .running ⟨[blockFrame code loop.body] ++ [.count code name first last (next + 1) loop],
        world.assign name (.int (Int64.ofInt next))⟩ := by
  simp only [step, if_pos hle, List.singleton_append]

theorem step_count_end {code : Code} {name : String} {first last next : Int} {loop : Loop}
    (hlt : last < next) (world : World σ) :
    step ⟨[.count code name first last next loop], world⟩ =
      .running ⟨elseFrames code loop,
        world.note (.forFinished loop.line (roundsBetween first last))⟩ := by
  simp only [step, if_neg (Int.not_le.2 hlt), List.append_nil]

omit [Console σ] in
/-- The code of a function holds its body, and nothing else. -/
theorem holds_callee {callee : Code} {body : Body} (h : callee.tokens.toList = body.tokens) :
    callee.Holds 0 body.tokens ∧ 0 + body.tokens.length = callee.size := by
  refine ⟨Code.Holds.of_toList [] h, ?_⟩
  rw [← h, Array.length_toList, Nat.zero_add]
  rfl

/-! ## From trees to tokens -/

/-- The frames come to an end with an outcome, in a world that mirrors a state. -/
def Ends (frames : List Frame) (world : World σ) (outcome : Outcome) (state : State σ) : Prop :=
  ∃ fuel final, run fuel ⟨frames, world⟩ = some (outcome, final) ∧ Mirrors final state

namespace Ends

variable {frames rest : List Frame} {world : World σ} {outcome : Outcome} {state middle : State σ}

theorem of_step {machine : Machine σ} (hstep : step ⟨frames, world⟩ = .running machine)
    (h : Ends machine.frames machine.world outcome state) : Ends frames world outcome state := by
  obtain ⟨fuel, final, hrun, hfinal⟩ := h
  refine ⟨fuel + 1, final, ?_, hfinal⟩
  rw [run, hstep]
  exact hrun

theorem of_halted {final : World σ} (hstep : step ⟨frames, world⟩ = .halted outcome final)
    (h : Mirrors final state) : Ends frames world outcome state := by
  refine ⟨1, final, ?_, h⟩
  rw [run, hstep]

theorem nil (h : Mirrors world state) : Ends [] world (.done .next) state :=
  of_halted rfl h

/-- Frames that come to their end, and then those below them. -/
theorem append (h : Ends frames world (.done .next) middle)
    (hrest : ∀ other, Mirrors other middle → Ends rest other outcome state) :
    Ends (frames ++ rest) world outcome state := by
  obtain ⟨fuel, final, hrun, hfinal⟩ := h
  obtain ⟨more, final', hrun', hfinal'⟩ := hrest final hfinal
  exact ⟨fuel + more, final', run_append_of_next hrun hrun', hfinal'⟩

/-- Frames that end the program early. -/
theorem append_stop (h : Ends frames world outcome middle) (hstop : outcome ≠ .done .next)
    (hrest : ∀ other : World σ, Mirrors other middle → Mirrors (other.unwind rest) state) :
    Ends (frames ++ rest) world outcome state := by
  obtain ⟨fuel, final, hrun, hfinal⟩ := h
  exact ⟨fuel, final.unwind rest, run_append_of_stop hrun hstop, hrest final hfinal⟩

/-- The line end before a block is passed over. -/
theorem of_block {block : Block}
    (h : ∀ {code : Code} {start stop : Nat}, code.Holds start block.tokens →
      start + block.tokens.length = stop → Ends [.block code start stop] world outcome state)
    (hstands : Stands (.block block) frames) : Ends frames world outcome state := by
  cases hstands with
  | block hholds hstop => exact h hholds hstop
  | body hholds hstop =>
    simp only [Body.tokens, List.length_cons] at hstop
    refine of_step (step_newline hholds.1 (by omega) [] world) ?_
    exact h hholds.2 (by omega)

end Ends

/-- What a task comes to, the frames that hold it come to. -/
theorem Runs.ends {task : Task} {state state' : State σ} {outcome : Outcome}
    (h : Runs task state outcome state') {frames : List Frame} {world : World σ}
    (hstands : Stands task frames) (hab : Mirrors world state) :
    Ends frames world outcome state' := by
  induction h generalizing frames world with
  | done =>
    cases hstands with
    | done => exact Ends.nil hab
  | exit => cases hstands
  | nil =>
    refine Ends.of_block (fun {code start stop} hholds hstop => ?_) hstands
    obtain rfl : start = stop := hstop
    have hstep : step ⟨[.block code start start], world⟩ = .running ⟨[], world⟩ := by
      simp only [step, Nat.lt_irrefl, false_and, if_false]
    exact Ends.of_step hstep (Ends.nil hab)
  | cons_failed hhead =>
    refine Ends.of_block (fun {code start stop} hholds hstop => ?_) hstands
    obtain ⟨hstatement, heol, hlt, -⟩ := holds_cons hholds hstop
    have hperforms := step_statement hstatement heol hlt hab
    rw [hhead] at hperforms
    obtain ⟨final, hfinal, hstep⟩ := hperforms
    exact Ends.of_halted hstep hfinal
  | cons_stop hhead htask hne ih =>
    refine Ends.of_block (fun {code start stop} hholds hstop => ?_) hstands
    obtain ⟨hstatement, heol, hlt, -⟩ := holds_cons hholds hstop
    have hperforms := step_statement hstatement heol hlt hab
    rw [hhead] at hperforms
    obtain ⟨final, hfinal, ⟨rfl, hstep⟩ | ⟨frames, htask', hstep⟩⟩ := hperforms
    · cases htask with
      | exit => exact Ends.of_halted hstep hfinal
    · refine Ends.of_step hstep ?_
      exact (ih htask' hfinal).append_stop hne fun other hother => hother
  | cons hhead htask _ ih ih' =>
    refine Ends.of_block (fun {code start stop} hholds hstop => ?_) hstands
    obtain ⟨hstatement, heol, hlt, hrest⟩ := holds_cons hholds hstop
    have hperforms := step_statement hstatement heol hlt hab
    rw [hhead] at hperforms
    obtain ⟨final, hfinal, ⟨rfl, hstep⟩ | ⟨frames, htask', hstep⟩⟩ := hperforms
    · cases htask
    · refine Ends.of_step hstep ?_
      exact (ih htask' hfinal).append fun other hother => ih' hrest hother
  | @call body s s₁ o hblock ih =>
    cases hstands with
    | @call callee _ htokens =>
      obtain ⟨hholds, hsize⟩ := holds_callee htokens
      have hbody := stands_body hholds
      rw [hsize] at hbody
      have hends := ih hbody hab
      by_cases hnext : o = .done .next
      · subst hnext
        exact hends.append fun other hother => Ends.of_step rfl (Ends.nil hother.endCall)
      · exact hends.append_stop hnext fun other hother => hother.endCall
  | while_failed heval =>
    cases hstands with
    | whileLoop line rounds hholds =>
      have htests := step_retest hholds hab line rounds
      rw [heval] at htests
      obtain ⟨final, hfinal, hstep⟩ := htests
      exact Ends.of_halted hstep hfinal
  | while_end heval hfalse _ ih =>
    cases hstands with
    | whileLoop line rounds hholds =>
      have htests := step_retest hholds hab line rounds
      rw [heval] at htests
      obtain ⟨final, hfinal, hstep⟩ := htests
      rw [if_neg (Bool.eq_false_iff.1 hfalse)] at hstep
      simp only [Code.Holds.append_iff] at hholds
      exact Ends.of_step hstep (ih (stands_ending hholds.2.2) hfinal)
  | while_stop heval htrue _ hne ih =>
    cases hstands with
    | whileLoop line rounds hholds =>
      have htests := step_retest hholds hab line rounds
      rw [heval] at htests
      obtain ⟨final, hfinal, hstep⟩ := htests
      rw [if_pos htrue] at hstep
      simp only [Code.Holds.append_iff] at hholds
      refine Ends.of_step hstep ?_
      exact (ih (stands_body hholds.2.1) hfinal).append_stop hne fun other hother => hother
  | while_round heval htrue _ _ ih ih' =>
    cases hstands with
    | whileLoop line rounds hholds =>
      have htests := step_retest hholds hab line rounds
      rw [heval] at htests
      obtain ⟨final, hfinal, hstep⟩ := htests
      rw [if_pos htrue] at hstep
      have hparts := hholds
      simp only [Code.Holds.append_iff] at hparts
      refine Ends.of_step hstep ?_
      refine (ih (stands_body hparts.2.1) hfinal).append fun other hother => ?_
      exact ih' (Stands.whileLoop line (rounds + 1) hholds) hother
  | for_end hlt _ ih =>
    cases hstands with
    | forLoop name first last next line hholds =>
      simp only [Code.Holds.append_iff] at hholds
      exact Ends.of_step (step_count_end hlt world) (ih (stands_ending hholds.2) (hab.note _))
  | for_stop hle _ hne ih =>
    cases hstands with
    | forLoop name first last next line hholds =>
      simp only [Code.Holds.append_iff] at hholds
      refine Ends.of_step (step_count hle world) ?_
      exact (ih (stands_body hholds.1) (hab.assign _ _)).append_stop hne fun other hother => hother
  | for_round hle _ _ ih ih' =>
    cases hstands with
    | forLoop name first last next line hholds =>
      have hparts := hholds
      simp only [Code.Holds.append_iff] at hparts
      refine Ends.of_step (step_count hle world) ?_
      refine (ih (stands_body hparts.1) (hab.assign _ _)).append fun other hother => ?_
      exact ih' (Stands.forLoop _ first _ _ line hholds) hother

/-! ## From tokens to trees -/

/-- Frames that hold a task and come to an end in this many steps do what the task does. -/
def Sound (σ : Type) [Console σ] (fuel : Nat) : Prop :=
  ∀ {task : Task} {frames : List Frame} {world final : World σ} {state : State σ}
    {outcome : Outcome}, Stands task frames → Mirrors world state →
    run fuel ⟨frames, world⟩ = some (outcome, final) →
    ∃ state', Runs task state outcome state' ∧ Mirrors final state'

/-- Frames that hold a task, on top of others. -/
theorem Sound.append {fuel : Nat} (h : Sound σ fuel) {task : Task} {frames rest : List Frame}
    {world final : World σ} {state : State σ} {outcome : Outcome} (hstands : Stands task frames)
    (hab : Mirrors world state) (hrun : run fuel ⟨frames ++ rest, world⟩ = some (outcome, final)) :
    ∃ middle state', Mirrors middle state' ∧
      (Runs task state (.done .next) state' ∧ run fuel ⟨rest, middle⟩ = some (outcome, final) ∨
        Runs task state outcome state' ∧ outcome ≠ .done .next ∧ final = middle.unwind rest) := by
  obtain ⟨first, middle, hfirst, hrest⟩ := run_of_append hrun
  obtain ⟨state', hruns, hmiddle⟩ := h hstands hab hfirst
  refine ⟨middle, state', hmiddle, ?_⟩
  rcases hrest with ⟨rfl, hrest⟩ | ⟨hne, hanswer⟩
  · exact Or.inl ⟨hruns, hrest⟩
  · obtain ⟨rfl, rfl⟩ := Prod.mk.inj hanswer
    exact Or.inr ⟨hruns, hne, rfl⟩

theorem run_call_eq {fuel : Nat} {world : World σ} {answer : Outcome × World σ}
    (h : run fuel ⟨[.call], world⟩ = some answer) : answer = (.done .next, world.endCall) := by
  have hmore := run_mono (Nat.le_add_right fuel 2) h
  exact (Option.some.inj hmore).symm

namespace Sound

variable {fuel : Nat} {world final : World σ} {state : State σ} {outcome : Outcome}

/-- The first statement of a block, and then the others. -/
theorem statement (ih : Sound σ fuel) {code : Code} {start stop : Nat} {statement : Statement}
    {eol : Mark} {rest : Block} (hholds : code.Holds start (Block.cons statement eol rest).tokens)
    (hstop : start + (Block.cons statement eol rest).tokens.length = stop)
    (hab : Mirrors world state)
    (h : run (fuel + 1) ⟨[.block code start stop], world⟩ = some (outcome, final)) :
    ∃ state', Runs (.block (.cons statement eol rest)) state outcome state' ∧
      Mirrors final state' := by
  obtain ⟨hstatement, heol, hlt, hrest⟩ := holds_cons hholds hstop
  have hperforms := step_statement hstatement heol hlt hab
  rw [run] at h
  cases hhead : statement.head.run state with
  | error e state₁ =>
    rw [hhead] at hperforms
    obtain ⟨final', hfinal, hstep⟩ := hperforms
    rw [hstep] at h
    obtain ⟨rfl, rfl⟩ := Prod.mk.inj (Option.some.inj h)
    exact ⟨state₁, Runs.cons_failed hhead, hfinal⟩
  | ok task state₁ =>
    rw [hhead] at hperforms
    obtain ⟨world₁, hworld₁, ⟨rfl, hstep⟩ | ⟨frames, htask, hstep⟩⟩ := hperforms
    · rw [hstep] at h
      obtain ⟨rfl, rfl⟩ := Prod.mk.inj (Option.some.inj h)
      exact ⟨state₁, Runs.cons_stop hhead Runs.exit (by simp), hworld₁⟩
    · rw [hstep] at h
      obtain ⟨world₂, state₂, hworld₂, ⟨hruns, hmore⟩ | ⟨hruns, hne, rfl⟩⟩ :=
        ih.append htask hworld₁ h
      · obtain ⟨state₃, hruns', hfinal⟩ := ih hrest hworld₂ hmore
        exact ⟨state₃, Runs.cons hhead hruns hruns', hfinal⟩
      · exact ⟨state₂, Runs.cons_stop hhead hruns hne, hworld₂⟩

/-- The test of a condition, and then a round or the `else` clause. -/
theorem retest (ih : Sound σ fuel) {code : Code} {start line rounds : Nat} {condition : Run}
    {body : Body} {ending : Ending}
    (hholds : code.Holds start (condition.tokens ++ (body.tokens ++ ending.tokens)))
    (hab : Mirrors world state)
    (h : run (fuel + 1)
      ⟨[.retest code start (loopAt line (start + condition.tokens.length) body ending) rounds],
        world⟩ = some (outcome, final)) :
    ∃ state', Runs (.whileLoop condition body ending) state outcome state' ∧
      Mirrors final state' := by
  have hparts := hholds
  simp only [Code.Holds.append_iff] at hparts
  have htests := step_retest hholds hab line rounds
  rw [run] at h
  cases heval : (Effect.evaluate condition).run state with
  | error e state₁ =>
    rw [heval] at htests
    obtain ⟨final', hfinal, hstep⟩ := htests
    rw [hstep] at h
    obtain ⟨rfl, rfl⟩ := Prod.mk.inj (Option.some.inj h)
    exact ⟨state₁, Runs.while_failed heval, hfinal⟩
  | ok value state₁ =>
    rw [heval] at htests
    obtain ⟨world₁, hworld₁, hstep⟩ := htests
    rw [hstep] at h
    by_cases htruthy : value.isTruthy = true
    · simp only [if_pos htruthy] at h
      obtain ⟨world₂, state₂, hworld₂, ⟨hruns, hmore⟩ | ⟨hruns, hne, rfl⟩⟩ :=
        ih.append (stands_body hparts.2.1) hworld₁ h
      · obtain ⟨state₃, hruns', hfinal⟩ :=
          ih (Stands.whileLoop line (rounds + 1) hholds) hworld₂ hmore
        exact ⟨state₃, Runs.while_round heval htruthy hruns hruns', hfinal⟩
      · exact ⟨state₂, Runs.while_stop heval htruthy hruns hne, hworld₂⟩
    · simp only [if_neg htruthy] at h
      obtain ⟨state₂, hruns, hfinal⟩ := ih (stands_ending hparts.2.2) hworld₁ h
      exact ⟨state₂, Runs.while_end heval (Bool.eq_false_iff.2 htruthy) hruns, hfinal⟩

/-- One round of a counted loop, or its `else` clause. -/
theorem count (ih : Sound σ fuel) {code : Code} {start line : Nat} {name : String}
    {first last next : Int} {body : Body} {ending : Ending}
    (hholds : code.Holds start (body.tokens ++ ending.tokens)) (hab : Mirrors world state)
    (h : run (fuel + 1)
      ⟨[.count code name first last next (loopAt line start body ending)], world⟩ =
        some (outcome, final)) :
    ∃ state', Runs (.forLoop name next last body ending) state outcome state' ∧
      Mirrors final state' := by
  have hparts := hholds
  simp only [Code.Holds.append_iff] at hparts
  rw [run] at h
  by_cases hle : next ≤ last
  · rw [step_count hle] at h
    obtain ⟨world₂, state₂, hworld₂, ⟨hruns, hmore⟩ | ⟨hruns, hne, rfl⟩⟩ :=
      ih.append (stands_body hparts.1) (hab.assign _ _) h
    · obtain ⟨state₃, hruns', hfinal⟩ :=
        ih (Stands.forLoop name first last (next + 1) line hholds) hworld₂ hmore
      exact ⟨state₃, Runs.for_round hle hruns hruns', hfinal⟩
    · exact ⟨state₂, Runs.for_stop hle hruns hne, hworld₂⟩
  · rw [step_count_end (Int.not_le.1 hle)] at h
    obtain ⟨state₂, hruns, hfinal⟩ := ih (stands_ending hparts.2) (hab.note _) h
    exact ⟨state₂, Runs.for_end (Int.not_le.1 hle) hruns, hfinal⟩

/-- A call: the body of the function, and then the end of the call. -/
theorem call (ih : Sound σ fuel) {callee : Code} {body : Body}
    (htokens : callee.tokens.toList = body.tokens) (hab : Mirrors world state)
    (h : run (fuel + 1) ⟨[.block callee 0 callee.size, .call], world⟩ = some (outcome, final)) :
    ∃ state', Runs (.call body) state outcome state' ∧ Mirrors final state' := by
  obtain ⟨hholds, hsize⟩ := holds_callee htokens
  cases body with
  | mk eol block =>
    simp only [Body.tokens, List.length_cons] at hsize
    rw [run, step_newline hholds.1 (by omega)] at h
    have hsplit : run fuel ⟨[.block callee (0 + 1) callee.size] ++ [.call], world⟩ =
        some (outcome, final) := h
    obtain ⟨world₂, state₂, hworld₂, ⟨hruns, hmore⟩ | ⟨hruns, hne, rfl⟩⟩ :=
      ih.append (Stands.block hholds.2 (by omega)) hab hsplit
    · obtain ⟨rfl, rfl⟩ := Prod.mk.inj (run_call_eq hmore)
      exact ⟨state₂.endCall, Runs.call hruns, hworld₂.endCall⟩
    · exact ⟨state₂.endCall, Runs.call hruns, hworld₂.endCall⟩

end Sound

/-- What frames that hold a task come to, the task comes to. -/
theorem sound (fuel : Nat) : Sound σ fuel := by
  induction fuel with
  | zero =>
    intro task frames world final state outcome _ _ h
    simp [run] at h
  | succ fuel ih =>
    intro task frames world final state outcome hstands hab h
    cases hstands with
    | done =>
      obtain ⟨rfl, rfl⟩ := Prod.mk.inj (Option.some.inj h)
      exact ⟨state, Runs.done, hab⟩
    | @block code start stop block hholds hstop =>
      cases block with
      | nil =>
        obtain rfl : start = stop := hstop
        simp only [run, step, Nat.lt_irrefl, false_and, if_false] at h
        obtain ⟨state', hruns, hfinal⟩ := ih Stands.done hab h
        cases hruns with
        | done => exact ⟨state, Runs.nil, hfinal⟩
      | cons statement eol rest => exact ih.statement hholds hstop hab h
    | body hholds hstop =>
      simp only [Body.tokens, List.length_cons] at hstop
      rw [run, step_newline hholds.1 (by omega)] at h
      exact ih (Stands.block hholds.2 (by omega)) hab h
    | whileLoop line rounds hholds => exact ih.retest hholds hab h
    | forLoop name first last next line hholds => exact ih.count hholds hab h
    | call htokens => exact ih.call htokens hab h

/-! ## Whole programs -/

/-- What a run reports is what a machine comes to that remembers no closes, as far as states show
it. -/
theorem runRange_shown (fuel : Nat) (context : Context) (console : σ) (journal : Journal)
    (tokens : Array Token) (extent : Extent) :
    (context.runRange fuel console journal tokens extent).map
        (fun report => (report.outcome, report.context, report.console)) =
      (run fuel ⟨[blockFrame (.program tokens) extent],
          { context.world console journal with closes := none }⟩).map
        fun answer => (answer.1, answer.2.context, answer.2.console) := by
  have hrun := observe_run (context.alike_start console journal tokens extent) fuel
  have hshown := congrArg (Option.map fun answer => (answer.1, answer.2.1, answer.2.2.1)) hrun
  simp only [Option.map_map] at hshown
  rw [Context.runRange, Context.finish, Option.map_map]
  exact hshown

/-- **Running the tokens of a program is running the program.**  Take a program, a context whose
functions are programs too, and a console.  If the program comes to an end, then so does the run of
its tokens, and if the run does, then so does the program; the outcome is the same, and what the run
leaves behind shows the state in which the program ends. -/
theorem runRange_runs (block : Block) (context : Context) (console : σ) (journal : Journal)
    (state : State σ) (h : Depicts context console state) :
    (∀ outcome state', Runs (.block block) state outcome state' →
        ∃ fuel report,
          context.runRange fuel console journal block.tokens.toArray
            ⟨0, block.tokens.toArray.size⟩ = some report ∧
          report.outcome = outcome ∧ Depicts report.context report.console state') ∧
      ∀ fuel report,
        context.runRange fuel console journal block.tokens.toArray
            ⟨0, block.tokens.toArray.size⟩ = some report →
          ∃ state', Runs (.block block) state report.outcome state' ∧
            Depicts report.context report.console state' := by
  have hstands : Stands (.block block)
      [blockFrame (.program block.tokens.toArray) ⟨0, block.tokens.toArray.size⟩] := by
    refine Stands.block (Code.Holds.of_toList [] rfl) ?_
    rw [Nat.zero_add, List.size_toArray]
  have hab : Mirrors { context.world console journal with closes := none } state := ⟨h, rfl⟩
  have hshown := fun fuel => runRange_shown fuel context console journal block.tokens.toArray
    ⟨0, block.tokens.toArray.size⟩
  constructor
  · intro outcome state' hruns
    obtain ⟨fuel, final, hrun, hfinal⟩ := hruns.ends hstands hab
    have hreport := hshown fuel
    rw [hrun, Option.map_some] at hreport
    obtain ⟨report, hsome, heq⟩ := Option.map_eq_some_iff.1 hreport
    simp only [Prod.mk.injEq] at heq
    obtain ⟨houtcome, hcontext, hconsole⟩ := heq
    refine ⟨fuel, report, hsome, houtcome, ?_⟩
    rw [hcontext, hconsole]
    exact hfinal.depicts
  · intro fuel report hreport
    have hrun := hshown fuel
    rw [hreport, Option.map_some] at hrun
    obtain ⟨⟨outcome, final⟩, hsome, heq⟩ := Option.map_eq_some_iff.1 hrun.symm
    simp only [Prod.mk.injEq] at heq
    obtain ⟨houtcome, hcontext, hconsole⟩ := heq
    obtain ⟨state', hruns, hfinal⟩ := sound fuel hstands hab hsome
    rw [← houtcome, ← hcontext, ← hconsole]
    exact ⟨state', hruns, hfinal.depicts⟩

/-- A state without variables and functions. -/
def State.fresh (callLimit : Nat) (console : σ) : State σ :=
  ⟨∅, fun _ => none, callLimit, 0, console⟩

omit [Console σ] in
theorem depicts_fresh (callLimit : Nat) (console : σ) :
    Depicts (Context.fresh callLimit) console (State.fresh callLimit console) := by
  refine ⟨rfl, fun name => ?_, rfl, rfl, rfl⟩
  rw [Context.fresh, FunctionTable.get?_empty]
  rfl

/-- A mark at the start of the text. -/
def markOf (lexeme : String) : Mark := ⟨lexeme, .start⟩

/-- The block `print`. -/
def printing : Block := .cons (.print (markOf "print") ⟨[], by simp⟩) (markOf "\n") .nil

/-- The body of a function `f` that stores another body under its own name, and then prints. -/
def selfReplacing : Body :=
  .mk (markOf "\n")
    (.cons (.func (markOf "func") ⟨"f", markOf "f"⟩
        (.mk (markOf "\n") (.cons (.exit (markOf "exit")) (markOf "\n") .nil)) (markOf "leave"))
      (markOf "\n") printing)

/-- The block `f`. -/
def calling : Block := .cons (.call ⟨"f", markOf "f"⟩) (markOf "\n") .nil

/-- The state in which `f` is stored, and nothing else. -/
def replacingState : State Console.Buffered :=
  { State.fresh 1 ⟨[], []⟩ with
    functions := Function.update (fun _ => none) "f" (some selfReplacing) }

/-- A call of `f` runs the body that `f` had when it was called. -/
theorem runs_calling : ∃ final, Runs (.block calling) replacingState (.done .next) final ∧
    final.depth = 0 ∧ final.console.output = [""] := by
  have hprint : ∀ s : State Console.Buffered, Runs (.block printing) s (.done .next)
      { s with console := ⟨s.console.inputs, .line "" :: s.console.transcript⟩ } :=
    fun s => Runs.cons (show _ = EStateM.Result.ok Task.done _ from rfl) Runs.done Runs.nil
  have hbody : ∃ functions, Runs (.block selfReplacing.block) { replacingState with depth := 1 }
      (.done .next) ⟨∅, functions, 1, 1, ⟨[], [.line ""]⟩⟩ :=
    ⟨_, Runs.cons (show _ = EStateM.Result.ok Task.done _ from rfl) Runs.done (hprint _)⟩
  obtain ⟨functions, hbody⟩ := hbody
  refine ⟨⟨∅, functions, 1, 0, ⟨[], [.line ""]⟩⟩, ?_, rfl, rfl⟩
  exact Runs.cons (show _ = EStateM.Result.ok (Task.call selfReplacing) _ from rfl)
    (Runs.call hbody) Runs.nil

/-- A program that calls a function, which replaces itself, runs the body that the function had, and
comes to its end. -/
theorem runRange_runs_selfReplacing :
    ∃ fuel report,
      ((Context.fresh 1).define "f" selfReplacing.tokens.toArray).runRange fuel
        (⟨[], []⟩ : Console.Buffered) .silent calling.tokens.toArray ⟨0, 2⟩ = some report ∧
      report.outcome = .done .next ∧ report.context.depth = 0 ∧ report.console.output = [""] := by
  have htokens : selfReplacing.tokens.toArray.toList = selfReplacing.tokens := rfl
  have hdepicts : Depicts ((Context.fresh 1).define "f" selfReplacing.tokens.toArray) ⟨[], []⟩
      replacingState :=
    (depicts_fresh 1 (⟨[], []⟩ : Console.Buffered)).define "f" htokens []
  obtain ⟨final, hruns, hdepth, houtput⟩ := runs_calling
  obtain ⟨fuel, report, hreport, houtcome, hfinal⟩ :=
    (runRange_runs calling _ _ .silent _ hdepicts).1 _ _ hruns
  refine ⟨fuel, report, hreport, houtcome, hfinal.depth.trans hdepth, ?_⟩
  rw [hfinal.console]
  exact houtput

end TokenScript.Program
