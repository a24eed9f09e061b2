import TokenScript.Machine
import TokenScript.Proofs.Coupled
import TokenScript.Proofs.Program.Layout
import TokenScript.Proofs.Program.Semantics

/-!
# Statements of programs in code

Execution meets a program as tokens at indices.  A task *stands* in frames when these hold the
tokens of its parts in the right places, and a world *mirrors* a state when it shows all that the
state does.  This file compares what a statement does by itself on the two sides: executing the
token at an index, which checks the form of the statement and scans for its closes, and the head of
the tree.  An action *follows* an effect when, from a world and a state that mirror each other, both
come to the same.

* `Depicts`, `Mirrors`: contexts and worlds that show a state.
* `Stands`: the frames that hold a task.
* `Returns`: an action that only finds something out.
* `Follows`: an action that does what an effect does.
* `follows_execute`: every statement does what its head does, and goes on with what is left of it.
-/

namespace TokenScript

namespace Program

variable {σ : Type}

/-! ## Worlds and states -/

/-- A context and a console show a state: all is equal, but that functions are stored as tokens. -/
structure Depicts (context : Context) (console : σ) (state : State σ) : Prop where
  store : context.store = state.store
  functions : ∀ name, (context.functions.get? name).map (fun code => code.tokens.toList) =
    (state.functions name).map Body.tokens
  callLimit : context.callLimit = state.callLimit
  depth : context.depth = state.depth
  console : console = state.console

/-- Storing the tokens of a body on the one side and the body on the other. -/
theorem Depicts.define {context : Context} {console : σ} {state : State σ}
    (h : Depicts context console state) (name : String) {tokens : Array Token} {body : Body}
    (htokens : tokens.toList = body.tokens) (held : List Nat) :
    Depicts (context.define name tokens held) console
      { state with functions := Function.update state.functions name (some body) } := by
  refine { h with functions := fun other => ?_ }
  show ((context.functions.define name tokens held).get? other).map
    (fun code => code.tokens.toList) =
    (Function.update state.functions name (some body) other).map Body.tokens
  by_cases hname : name = other
  · subst hname
    rw [FunctionTable.get?_define_self, Function.update_self]
    exact congrArg some htokens
  · rw [FunctionTable.get?_define_of_ne _ _ _ hname, Function.update_of_ne (Ne.symm hname)]
    exact h.functions other

/-- A world that remembers no closes shows a state. -/
structure Mirrors (world : World σ) (state : State σ) : Prop where
  depicts : Depicts world.context world.console state
  scans : world.closes = none

namespace Mirrors

variable {world : World σ} {state : State σ}

/-- The journal is not part of any state. -/
theorem note (h : Mirrors world state) (event : Event) : Mirrors (world.note event) state :=
  ⟨h.depicts, h.scans⟩

theorem withConsole (h : Mirrors world state) (console : σ) :
    Mirrors { world with console := console } { state with console := console } :=
  ⟨{ h.depicts with console := rfl }, h.scans⟩

theorem assign (h : Mirrors world state) (name : String) (value : Value) :
    Mirrors (world.assign name value) (state.assign name value) :=
  ⟨{ h.depicts with store := congrArg (Store.assign · name value) h.depicts.store }, h.scans⟩

theorem endCall (h : Mirrors world state) : Mirrors world.endCall state.endCall :=
  ⟨{ h.depicts with depth := congrArg (· - 1) h.depicts.depth }, h.scans⟩

theorem startCall (h : Mirrors world state) :
    Mirrors { world with context := { world.context with depth := world.context.depth + 1 } }
      { state with depth := state.depth + 1 } :=
  ⟨{ h.depicts with depth := congrArg (· + 1) h.depicts.depth }, h.scans⟩

/-- A name is a function on both sides, with the same tokens, or on neither. -/
theorem functions_cases (h : Mirrors world state) (name : String) :
    (world.context.functions.get? name = none ∧ state.functions name = none) ∨
      ∃ code body, world.context.functions.get? name = some code ∧
        state.functions name = some body ∧ code.tokens.toList = body.tokens := by
  have hmap := h.depicts.functions name
  cases hcode : world.context.functions.get? name with
  | none =>
    rw [hcode, Option.map_none] at hmap
    exact Or.inl ⟨rfl, Option.map_eq_none_iff.1 hmap.symm⟩
  | some code =>
    rw [hcode, Option.map_some] at hmap
    obtain ⟨body, hbody, htokens⟩ := Option.map_eq_some_iff.1 hmap.symm
    exact Or.inr ⟨code, body, rfl, hbody, htokens.symm⟩

end Mirrors

/-! ## Tasks in frames -/

/-- The extent of an `else` clause, if the ending at an index has one. -/
def Ending.extent? (start : Nat) : Ending → Option Extent
  | .close _ => none
  | .otherwise _ body _ => some ⟨start + 1, start + 1 + body.tokens.length⟩

/-- The loop whose body and ending stand at an index. -/
def loopAt (line start : Nat) (body : Body) (ending : Ending) : Loop :=
  ⟨line, ⟨start, start + body.tokens.length⟩, ending.extent? (start + body.tokens.length)⟩

/-- The frames hold the tokens of a task. -/
inductive Stands : Task → List Frame → Prop
  | done : Stands .done []
  | block {code : Code} {start stop : Nat} {block : Block} :
    code.Holds start block.tokens → start + block.tokens.length = stop →
      Stands (.block block) [.block code start stop]
  /-- A block may stand there with the line end before it. -/
  | body {code : Code} {start stop : Nat} {eol : Mark} {block : Block} :
    code.Holds start (Body.mk eol block).tokens → start + (Body.mk eol block).tokens.length = stop →
      Stands (.block block) [.block code start stop]
  | whileLoop {code : Code} {start : Nat} {condition : Run} {body : Body} {ending : Ending}
    (line rounds : Nat) :
    code.Holds start (condition.tokens ++ (body.tokens ++ ending.tokens)) →
      Stands (.whileLoop condition body ending)
        [.retest code start (loopAt line (start + condition.tokens.length) body ending) rounds]
  | forLoop {code : Code} {start : Nat} {body : Body} {ending : Ending} (name : String)
    (first last next : Int) (line : Nat) :
    code.Holds start (body.tokens ++ ending.tokens) →
      Stands (.forLoop name next last body ending)
        [.count code name first last next (loopAt line start body ending)]
  | call {callee : Code} {body : Body} :
    callee.tokens.toList = body.tokens → Stands (.call body) [.block callee 0 callee.size, .call]

theorem stands_body {code : Code} {start : Nat} {body : Body} (h : code.Holds start body.tokens) :
    Stands (.block body.block) [.block code start (start + body.tokens.length)] := by
  cases body with
  | mk eol block => exact Stands.body h rfl

/-- An `else` clause stands where its ending has it. -/
theorem stands_ending {code : Code} {start : Nat} {ending : Ending}
    (h : code.Holds start ending.tokens) :
    Stands ending.task ((ending.extent? start).map (Machine.blockFrame code)).toList := by
  cases ending with
  | close word => exact Stands.done
  | otherwise word body close =>
    simp only [Ending.tokens, Code.Holds.cons_iff, Code.Holds.append_iff] at h
    exact stands_body h.2.1

end Program

/-- The frames that a flow puts on top, before the statements that follow. -/
def Flow.frames (code : Code) : Flow → List Frame
  | .advance _ => []
  | .enter extent _ => [Machine.blockFrame code extent]
  | .retest condition loop _ => [.retest code condition loop 0]
  | .count name first last loop _ => [.count code name first.toInt last.toInt first.toInt loop]
  | .call body _ => [.block body 0 body.size, .call]
  | .exit => []

/-- Where a flow goes on after that. -/
def Flow.next? : Flow → Option Nat
  | .advance next | .enter _ next | .retest _ _ next | .count _ _ _ _ next | .call _ next =>
    some next
  | .exit => none

/-- The world in which a flow goes on: a body that is called is in use. -/
def Flow.entered {σ : Type} (world : World σ) : Flow → World σ
  | .call body _ => world.hold body
  | _ => world

theorem Machine.follow_eq {σ : Type} {flow : Flow} {next : Nat} (h : flow.next? = some next)
    (code : Code) (stop : Nat) (rest : List Frame) (world : World σ) :
    follow code stop flow rest world =
      .running ⟨flow.frames code ++ .block code next stop :: rest, flow.entered world⟩ := by
  cases flow with
  | exit => simp [Flow.next?] at h
  | _ =>
    obtain rfl := Option.some.inj h
    rfl

namespace Program

/-- Which bodies are in use is not part of any state. -/
theorem Mirrors.entered {world : World σ} {state : State σ} (h : Mirrors world state)
    (flow : Flow) :
    Mirrors (flow.entered world) state := by
  cases flow <;> exact ⟨h.depicts, h.scans⟩

/-- A flow ends the program like the task, or goes on with the task and then at an index. -/
def Continues (code : Code) (next : Nat) (flow : Flow) (task : Task) : Prop :=
  (flow = .exit ∧ task = .exit) ∨ (flow.next? = some next ∧ Stands task (flow.frames code))

theorem continues_done (code : Code) (next : Nat) : Continues code next (.advance next) .done :=
  Or.inr ⟨rfl, Stands.done⟩

/-! ## Actions that find something out -/

section

variable {α β γ δ : Type}

/-- An action that returns a result in every world, and changes nothing that a state shows. -/
def Returns (x : Action σ α) (u : α) : Prop :=
  ∀ world state, Mirrors world state → ∃ final, x.run world = .ok u final ∧ Mirrors final state

/-- An action and an effect that come to the same; `Q` is what is said of their results. -/
def Follows (x : Action σ α) (y : Effect σ β) (Q : α → β → Prop) : Prop :=
  Coupled Mirrors x y (fun u v world state => Q u v ∧ Mirrors world state)
    (fun abort e world state => abort = .error e ∧ Mirrors world state)

namespace Returns

theorem of_pure (u : α) : Returns (σ := σ) (pure u) u :=
  fun world _ h => ⟨world, rfl, h⟩

theorem bind {x : Action σ α} {f : α → Action σ β} {u : α} {v : β} (hx : Returns x u)
    (hf : Returns (f u) v) : Returns (x >>= f) v := by
  intro world state h
  obtain ⟨middle, hrun, hmiddle⟩ := hx world state h
  obtain ⟨final, hrun', hfinal⟩ := hf middle state hmiddle
  refine ⟨final, ?_, hfinal⟩
  change EStateM.bind x f world = _
  simp only [EStateM.run] at hrun
  simp only [EStateM.bind, hrun]
  exact hrun'

end Returns

namespace Follows

theorem of_pure {u : α} {v : β} {Q : α → β → Prop} (h : Q u v) :
    Follows (σ := σ) (pure u) (pure v) Q :=
  Coupled.of_pure fun _ _ hab => ⟨h, hab⟩

/-- One step after another, on both sides. -/
theorem bind {x : Action σ α} {y : Effect σ β} {f : α → Action σ γ} {g : β → Effect σ δ}
    {P : α → β → Prop} {Q : γ → δ → Prop} (hx : Follows x y P)
    (hf : ∀ u v, P u v → Follows (f u) (g v) Q) : Follows (x >>= f) (y >>= g) Q := by
  refine Coupled.bind hx fun u v => ?_
  rintro world state ⟨hP, hab⟩
  exact hf u v hP world state hab

/-- A step that finds something out. -/
theorem bind_left {x : Action σ α} {f : α → Action σ β} {y : Effect σ γ} {u : α}
    {Q : β → γ → Prop} (hx : Returns x u) (hf : Follows (f u) y Q) : Follows (x >>= f) y Q := by
  refine Coupled.bind_left (R := fun v world state => v = u ∧ Mirrors world state) ?_ ?_
  · intro world state h
    obtain ⟨final, hrun, hfinal⟩ := hx world state h
    exact ⟨u, final, hrun, rfl, hfinal⟩
  · rintro v world state ⟨rfl, h⟩
    exact hf world state h

/-- A step that looks at the world, and at the state. -/
theorem bind_get {f : World σ → Action σ α} {g : State σ → Effect σ β} {Q : α → β → Prop}
    (h : ∀ world state, Mirrors world state → Follows (f world) (g state) Q) :
    Follows (get >>= f) (get >>= g) Q := by
  refine Coupled.bind_get fun world state hab => ?_
  rintro _ _ ⟨rfl, rfl⟩
  exact h _ _ hab _ _ hab

end Follows

end

open TokenScript.Action TokenScript.Statement

theorem returns_note (event : Event) : Returns (σ := σ) (note event) () :=
  fun world _ h => ⟨world.note event, rfl, h.note event⟩

theorem returns_tokenAt {code : Code} {index : Nat} {t : Token}
    (ht : code.tokens[index]? = some t) : Returns (σ := σ) (tokenAt code index) t := by
  rw [tokenAt, ht]
  exact Returns.of_pure t

theorem returns_expectName {code : Code} {index : Nat} {name : Name}
    (ht : code.tokens[index]? = some name.token) (after : Keyword) :
    Returns (σ := σ) (expectName code index after) (name.text, name.mark.span) := by
  rw [expectName, ht]
  exact Returns.of_pure _

theorem returns_expectKeyword {code : Code} {index : Nat} {mark : Mark} {word : Keyword}
    (ht : code.tokens[index]? = some (mark.keyword word)) :
    Returns (σ := σ) (expectKeyword code index word) () := by
  have hword : (mark.keyword word).isKeyword word = true := decide_eq_true rfl
  rw [expectKeyword, ht]
  simp only [hword, if_true]
  exact Returns.of_pure ()

theorem returns_expectBound {code : Code} {start stop : Nat} (h : stop ≠ start) (after : Keyword) :
    Returns (σ := σ) (expectBound code start stop after) () := by
  rw [expectBound, if_neg h]
  exact Returns.of_pure ()

/-- A scan that finds a close, in a world that remembers none. -/
theorem returns_closeOf {code : Code} {start index : Nat} {word : Keyword} {policy : BlockPolicy}
    (hscan : policy.scan code.tokens (start + 1) 0 = some ⟨index, word⟩) :
    Returns (σ := σ) (closeOf code start policy) index := by
  intro world state h
  have hclose : policy.close code.tokens start = .ok ⟨index, word⟩ := by
    rw [BlockPolicy.close, hscan]
  rw [run_closeOf, h.scans]
  simp only [Option.bind_none, hclose]
  exact ⟨_, rfl, h.depicts, rfl⟩

/-- The end of the `else` clause at an index. -/
theorem returns_elseEnd {code : Code} {start : Nat} {body : Body} {close : Mark}
    (hbody : code.Holds (start + 1) body.tokens)
    (hclose : code.tokens[start + 1 + body.tokens.length]? = some (close.keyword .endBlock)) :
    Returns (σ := σ) (elseEnd code start) (start + 1 + body.tokens.length) := by
  have hscan : BlockPolicy.elseClause.scan code.tokens (start + 1) 0 =
      some ⟨start + 1 + body.tokens.length, .endBlock⟩ :=
    scan_body_stop (by simp [BlockPolicy.all]) hbody hclose rfl (by simp [BlockPolicy.elseClause])
  have hword : (close.keyword .endBlock).isKeyword .endBlock = true := decide_eq_true rfl
  refine Returns.bind (returns_closeOf hscan) (Returns.bind (returns_tokenAt hclose) ?_)
  rw [if_pos hword]
  exact Returns.of_pure _

/-- The index of the `end` of an ending. -/
def Ending.stop (start : Nat) : Ending → Nat
  | .close _ => start
  | .otherwise _ body _ => start + 1 + body.tokens.length

theorem Ending.stop_succ (start : Nat) (ending : Ending) :
    ending.stop start + 1 = start + ending.tokens.length := by
  cases ending with
  | close word => rfl
  | otherwise word body close =>
    simp only [Ending.stop, Ending.tokens, List.length_cons, List.length_append, List.length_nil]
    omega

/-- The `else` clause of a loop. -/
theorem returns_loopElse {code : Code} {start : Nat} {ending : Ending}
    (h : code.Holds start ending.tokens) :
    Returns (σ := σ) (loopElse code start) (ending.extent? start, ending.stop start) := by
  cases ending with
  | close word =>
    have hword : (word.keyword .endBlock).isKeyword .elseClause = false :=
      decide_eq_false (by simp [Mark.keyword])
    refine Returns.bind (returns_tokenAt h.1) ?_
    rw [hword]
    exact Returns.of_pure _
  | otherwise word body close =>
    simp only [Ending.tokens, Code.Holds.cons_iff, Code.Holds.append_iff] at h
    obtain ⟨ht, hbody, hclose, -⟩ := h
    have hword : (word.keyword .elseClause).isKeyword .elseClause = true := decide_eq_true rfl
    refine Returns.bind (returns_tokenAt ht) ?_
    rw [if_pos hword]
    exact Returns.bind (returns_elseEnd hbody hclose) (Returns.of_pure _)

/-! ## Clauses -/

/-- The clause at an index. -/
def clauseAt (start : Nat) (condition : Run) (body : Body) : Clause :=
  ⟨some (start + 1), ⟨start + 1 + condition.tokens.length,
    start + 1 + condition.tokens.length + body.tokens.length⟩⟩

/-- The clauses of the branches at an index. -/
def Branches.clauses (start : Nat) : Branches → List Clause
  | .elif _ condition body rest =>
    clauseAt start condition body ::
      rest.clauses (start + 1 + condition.tokens.length + body.tokens.length)
  | .last ending => (ending.extent? start).toList.map (⟨none, ·⟩)

/-- The index of the `end` after the branches. -/
def Branches.stop (start : Nat) : Branches → Nat
  | .elif _ condition body rest =>
    rest.stop (start + 1 + condition.tokens.length + body.tokens.length)
  | .last ending => ending.stop start

theorem Branches.stop_succ (start : Nat) :
    ∀ branches : Branches, branches.stop start + 1 = start + branches.tokens.length
  | .elif word condition body rest => by
    have hrest := Branches.stop_succ (start + 1 + condition.tokens.length + body.tokens.length) rest
    simp only [Branches.stop, Branches.tokens, List.length_cons, List.length_append]
    omega
  | .last ending => ending.stop_succ start

/-- One clause, whose word is `if` or `elif`, and then the clauses after it. -/
theorem returns_clause {code : Code} {start : Nat} {t : Token} {condition : Run} {body : Body}
    {branches : Branches} {found : Array Clause} {result : Array Clause × Nat}
    (hword : (t.isKeyword .ifClause || t.isKeyword .elifClause) = true)
    (h : code.Holds start (t :: (condition.tokens ++ (body.tokens ++ branches.tokens))))
    (hrest : Returns (σ := σ)
      (clauses code (start + 1 + condition.tokens.length + body.tokens.length)
        (found.push (clauseAt start condition body))) result) :
    Returns (σ := σ) (clauses code start found) result := by
  simp only [Code.Holds.cons_iff, Code.Holds.append_iff] at h
  obtain ⟨ht, hcondition, hbody, hbranches⟩ := h
  obtain ⟨opener, hopener, hkeyword⟩ := holds_branches hbranches
  obtain ⟨eol, heol, hbearing⟩ := holds_body hbody
  have hend := Expression.endFrom_eq hcondition condition.bearing heol hbearing
  have hscan : BlockPolicy.conditional.scan code.tokens (start + 1) 0 =
      some ⟨start + 1 + condition.tokens.length + body.tokens.length, branches.word⟩ := by
    rw [scan_run hcondition condition.bearing]
    exact scan_body_stop (by simp [BlockPolicy.all]) hbody hopener hkeyword
      branches.word_mem_conditional
  have hsize : start + 1 + condition.tokens.length + body.tokens.length < code.size :=
    (Array.getElem?_eq_some_iff.1 hopener).1
  rw [clauses]
  refine Returns.bind (returns_tokenAt ht) ?_
  rw [if_pos hword]
  refine Returns.bind (returns_closeOf hscan) ?_
  rw [if_pos ⟨by omega, hsize⟩, hend]
  exact hrest

/-- The clauses of the branches of an `if`. -/
theorem returns_clauses {code : Code} :
    ∀ {start : Nat} (branches : Branches) (found : Array Clause),
    code.Holds start branches.tokens →
      Returns (σ := σ) (clauses code start found)
        (found ++ (branches.clauses start).toArray, branches.stop start)
  | start, .elif word condition body rest, found, h => by
    have hrest := h
    simp only [Branches.tokens, Code.Holds.cons_iff, Code.Holds.append_iff] at hrest
    have hclauses := returns_clauses (σ := σ) rest (found.push (clauseAt start condition body))
      hrest.2.2.2
    rw [List.push_append_toArray] at hclauses
    refine returns_clause ?_ h hclauses
    simp [Token.isKeyword, Mark.keyword]
  | start, .last (.close word), found, h => by
    rw [clauses]
    refine Returns.bind (returns_tokenAt h.1) ?_
    simp only [Token.isKeyword, Mark.keyword, Branches.clauses, Ending.extent?, Branches.stop,
      Ending.stop, Option.toList_none, List.map_nil, Array.append_empty]
    exact Returns.of_pure _
  | start, .last (.otherwise word body close), found, h => by
    simp only [Branches.tokens, Ending.tokens, Code.Holds.cons_iff, Code.Holds.append_iff] at h
    obtain ⟨ht, hbody, hclose, -⟩ := h
    rw [clauses]
    refine Returns.bind (returns_tokenAt ht) ?_
    simp only [Token.isKeyword, Mark.keyword, Branches.clauses, Ending.extent?, Branches.stop,
      Ending.stop, Option.toList_some, List.map_cons, List.map_nil]
    refine Returns.bind (returns_elseEnd hbody hclose) ?_
    rw [Array.push_eq_append]
    exact Returns.of_pure _

/-! ## Effects -/

theorem follows_assign (name : String) (value : Value) :
    Follows (σ := σ) (changeContext fun context => context.assign name value)
      (Effect.assign name value) fun _ _ => True :=
  Coupled.of_modify fun _ _ h => ⟨trivial, h.assign name value⟩

/-- A call starts, or is one too many, on both sides. -/
theorem agree_invoke {world : World σ} {state : State σ} {name : Name} {callee : Code}
    (h : Mirrors world state)
    (hcallee : world.context.functions.get? name.text = some callee) :
    Agree (fun found _ final state' => found = callee ∧ Mirrors final state')
      (fun abort e final state' => abort = .error e ∧ Mirrors final state')
      ((invoke name.text name.mark.span).run world) ((Effect.enter name).run state) := by
  rw [run_invoke, hcallee, h.depicts.callLimit, h.depicts.depth]
  change Agree _ _ _ ((if state.callLimit ≤ state.depth then
      throw ⟨.evaluation (.callDepthExceeded state.callLimit name.text), name.mark.span⟩
    else set { state with depth := state.depth + 1 } : Effect σ Unit) state)
  by_cases hlimit : state.callLimit ≤ state.depth
  · simp only [if_pos hlimit]
    exact ⟨rfl, h⟩
  · simp only [if_neg hlimit]
    have hstarted := h.startCall.note (.callStarted name.text (state.depth + 1))
    rw [h.depicts.depth] at hstarted
    exact ⟨rfl, hstarted⟩

/-- A call of a function that is there. -/
theorem agree_call {world : World σ} {state : State σ} {name : Name} {callee code : Code}
    {body : Body} (h : Mirrors world state)
    (hcallee : world.context.functions.get? name.text = some callee)
    (htokens : callee.tokens.toList = body.tokens) (next : Nat) :
    Agree (fun flow task final state' => Continues code next flow task ∧ Mirrors final state')
      (fun abort e final state' => abort = .error e ∧ Mirrors final state')
      ((invoke name.text name.mark.span >>= fun found => pure (Flow.call found next)).run world)
      ((Effect.enter name >>= fun _ => pure (Task.call body)).run state) := by
  refine Coupled.bind (P := fun w s => w = world ∧ s = state)
    (Q := fun found _ final state' => found = callee ∧ Mirrors final state') ?_ ?_ world state
    ⟨rfl, rfl⟩
  · rintro _ _ ⟨rfl, rfl⟩
    exact agree_invoke h hcallee
  · intro found _
    refine Coupled.of_pure ?_
    rintro final state' ⟨rfl, hfinal⟩
    exact ⟨Or.inr ⟨rfl, Stands.call htokens⟩, hfinal⟩

section

variable [Console σ]

theorem follows_writeLine (line : String) :
    Follows (σ := σ) (writeLine line) (Effect.write line) fun _ _ => True := by
  intro world state h
  rw [run_writeLine, h.depicts.console]
  change Agree _ _ _ (Effect.write line state)
  rw [Effect.write]
  rcases Console.writeLine line state.console with ⟨_ | _, console⟩
  · exact ⟨rfl, h.withConsole console⟩
  · exact ⟨trivial, h.withConsole console⟩

theorem follows_readLine (prompt : String) :
    Follows (σ := σ) (readLine prompt) (Effect.ask prompt) Eq := by
  intro world state h
  rw [run_readLine, h.depicts.console]
  change Agree _ _ _ (Effect.ask prompt state)
  rw [Effect.ask]
  rcases Console.readLine prompt state.console with ⟨_ | _, console⟩
  · exact ⟨rfl, h.withConsole console⟩
  · exact ⟨rfl, h.withConsole console⟩

/-- A report tells of the cause of a failure, and the journal of its place. -/
theorem follows_report (failure : Failure) :
    Follows (σ := σ) (report failure) (Effect.report failure.cause) fun _ _ => True :=
  Follows.bind_left (returns_note _) (follows_writeLine _)

/-- An expression is evaluated alike, if what comes after its tokens is not part of it. -/
theorem follows_evaluate {code : Code} {start : Nat} {run : Run} {t : Token}
    (hrun : code.Holds start run.tokens)
    (ht : code.tokens[start + run.tokens.length]? = some t) (hend : t.isValueBearing = false) :
    Follows (σ := σ) (evaluate code start) (Effect.evaluate run) Eq := by
  refine Follows.bind_get fun world state h => ?_
  rw [Expression.evaluateFrom, Expression.runFrom_eq hrun run.bearing ht hend, h.depicts.store]
  cases Expression.evaluate state.store run.tokens with
  | ok value => exact Follows.of_pure rfl
  | error failure => exact Follows.bind (follows_report failure) fun _ _ _ => Follows.of_pure rfl

/-- A bound comes to the same integer, or to none. -/
theorem follows_bound {code : Code} {start : Nat} {limit : Bound} {t : Token} (anchor : Nat)
    (hrun : code.Holds start limit.tokens)
    (ht : code.tokens[start + limit.tokens.length]? = some t) (hend : t.isValueBearing = false) :
    Follows (σ := σ) (bound code start anchor) (Effect.bound limit) Eq := by
  refine Follows.bind (follows_evaluate hrun ht hend) fun value other hvalue => ?_
  subst hvalue
  have hsize : start + limit.tokens.length < code.size := (Array.getElem?_eq_some_iff.1 ht).1
  have hanchor : min anchor (code.size - 1) < code.tokens.size :=
    Nat.lt_of_le_of_lt (Nat.min_le_right _ _) (by change code.size - 1 < code.size; omega)
  have hreport : ∀ kind : Kind, Follows (σ := σ)
      (do
        let t ← tokenAt code (min anchor (code.size - 1))
        report ⟨.boundNotInteger kind, t.span⟩
        pure none)
      (do
        Effect.report (.boundNotInteger kind)
        pure none) (Eq (α := Option Int64)) := by
    intro kind
    refine Follows.bind_left (returns_tokenAt (Array.getElem?_eq_getElem hanchor)) ?_
    exact Follows.bind (follows_report _) fun _ _ _ => Follows.of_pure rfl
  cases value with
  | int n => exact Follows.of_pure rfl
  | nothing => exact Follows.of_pure rfl
  | _ => exact hreport _

/-! ## Statements -/

variable {code : Code} {start : Nat}

theorem follows_print {word eol : Mark} {run : Run} (hrun : code.Holds (start + 1) run.tokens)
    (heol : code.tokens[start + 1 + run.tokens.length]? = some eol.newline) :
    Follows (σ := σ) (print code start) (Statement.head (.print word run))
      (Continues code (start + 1 + run.tokens.length)) := by
  have hend := Expression.endFrom_eq hrun run.bearing heol rfl
  rw [print, Statement.head]
  by_cases hempty : run.tokens = []
  · simp only [hend, hempty, List.length_nil, Nat.add_zero, if_true]
    exact Follows.bind (follows_writeLine _) fun _ _ _ => Follows.of_pure (continues_done _ _)
  · have hlength := List.length_pos_iff.2 hempty
    simp only [hend, if_neg hempty]
    rw [if_neg (by omega)]
    refine Follows.bind (follows_evaluate hrun heol rfl) fun value other hvalue => ?_
    subst hvalue
    exact Follows.bind (follows_writeLine _) fun _ _ _ => Follows.of_pure (continues_done _ _)

theorem follows_input {word : Mark} {name : Name}
    (hname : code.tokens[start + 1]? = some name.token) :
    Follows (σ := σ) (input code start) (Statement.head (.input word name))
      (Continues code (start + 2)) := by
  refine Follows.bind_left (returns_expectName hname _) ?_
  refine Follows.bind (follows_readLine _) fun line other hline => ?_
  subst hline
  refine Follows.bind_left (returns_note _) ?_
  exact Follows.bind (follows_assign _ _) fun _ _ _ => Follows.of_pure (continues_done _ _)

theorem follows_exec {word : Mark} {name : Name}
    (hname : code.tokens[start + 1]? = some name.token) :
    Follows (σ := σ) (call code start) (Statement.head (.exec word name))
      (Continues code (start + 2)) := by
  refine Follows.bind_left (returns_expectName hname _) ?_
  refine Coupled.bind_get fun world state h => ?_
  rintro _ _ ⟨rfl, rfl⟩
  rcases h.functions_cases name.text with ⟨hcode, hbody⟩ | ⟨callee, body, hcode, hbody, htokens⟩
  · simp only [hcode, hbody]
    exact Follows.bind (follows_report _) (fun _ _ _ => Follows.of_pure (continues_done _ _)) _ _ h
  · simp only [hcode, hbody]
    exact agree_call h hcode htokens _

theorem follows_named {name : Name} {eol : Mark}
    (heol : code.tokens[start + 1]? = some eol.newline) :
    Follows (σ := σ) (named code start name.text name.mark.span) (Statement.head (.call name))
      (Continues code (start + 1)) := by
  rw [named, heol]
  refine Coupled.bind_get fun world state h => ?_
  rintro _ _ ⟨rfl, rfl⟩
  rcases h.functions_cases name.text with ⟨hcode, hbody⟩ | ⟨callee, body, hcode, hbody, htokens⟩
  · simp only [hcode, hbody]
    have hskip :
        Follows (σ := σ) (note (.nameSkipped name.text) >>= fun _ => pure (.advance (start + 1)))
        (pure .done) (Continues code (start + 1)) :=
      Follows.bind_left (returns_note _) (Follows.of_pure (continues_done _ _))
    exact hskip _ _ h
  · simp only [hcode, hbody]
    exact agree_call h hcode htokens _

theorem follows_assignment {name : Name} {sign eol : Mark} {run : Run}
    (hsign : code.tokens[start + 1]? = some sign.assignment)
    (hrun : code.Holds (start + 2) run.tokens)
    (heol : code.tokens[start + 2 + run.tokens.length]? = some eol.newline) :
    Follows (σ := σ) (named code start name.text name.mark.span)
      (Statement.head (.assign name sign run))
      (Continues code (start + 2 + run.tokens.length)) := by
  rw [named, hsign, Expression.endFrom_eq hrun run.bearing heol rfl]
  refine Follows.bind (follows_evaluate hrun heol rfl) fun value other hvalue => ?_
  subst hvalue
  refine Follows.bind_left (returns_note _) ?_
  exact Follows.bind (follows_assign _ _) fun _ _ _ => Follows.of_pure (continues_done _ _)

/-- Storing the tokens between the name of a function and its `leave` stores its body. -/
theorem follows_define {word leave : Mark} {name : Name} {body : Body}
    (hname : code.tokens[start + 1]? = some name.token)
    (hbody : code.Holds (start + 2) body.tokens)
    (hleave : code.tokens[start + 2 + body.tokens.length]? = some (leave.keyword .leave)) :
    Follows (σ := σ) (define code start) (Statement.head (.func word name body leave))
      (Continues code (start + 2 + body.tokens.length + 1)) := by
  have hscan : BlockPolicy.function.scan code.tokens (start + 1) 0 =
      some ⟨start + 2 + body.tokens.length, .leave⟩ := by
    rw [BlockPolicy.scan_of_not_keyword hname rfl]
    exact scan_body_stop (by simp [BlockPolicy.all]) hbody hleave rfl
      (by simp [BlockPolicy.function])
  have hsize : start + 2 + body.tokens.length < code.size :=
    (Array.getElem?_eq_some_iff.1 hleave).1
  rw [define, hname]
  refine Follows.bind_left (returns_closeOf hscan) ?_
  rw [if_pos ⟨Nat.le_add_right _ _, hsize⟩]
  refine Follows.bind_left (returns_note _) ?_
  refine Follows.bind (P := fun _ _ => True) (Coupled.of_modify fun world state h => ?_)
    fun _ _ _ => ?_
  · exact ⟨trivial, h.depicts.define name.text hbody.extract_eq world.held, h.scans⟩
  · refine Follows.bind_left (u := ()) ?_ (Follows.of_pure (continues_done _ _))
    intro world state h
    refine ⟨{ world with closes := world.closes.map fun _ => ∅ }, rfl, h.depicts, ?_⟩
    show world.closes.map (fun _ => ∅) = none
    rw [h.scans, Option.map_none]

/-- What the body of a clause that is taken, if any, has to do with a task. -/
abbrev Takes (code : Code) (extent? : Option Extent) (task : Task) : Prop :=
  Stands task (extent?.map (Machine.blockFrame code)).toList

/-- A clause is taken if its condition holds, and otherwise one of those after it. -/
theorem follows_clause {condition : Run} {body : Body} {others : List Clause}
    {choose : Effect σ Task} (hcondition : code.Holds (start + 1) condition.tokens)
    (hbody : code.Holds (start + 1 + condition.tokens.length) body.tokens)
    (hothers : Follows (firstTaken code others) choose (Takes code)) :
    Follows (firstTaken code (clauseAt start condition body :: others))
      (do
        let value ← Effect.evaluate condition
        if value.isTruthy then pure (.block body.block) else choose) (Takes code) := by
  obtain ⟨eol, heol, hbearing⟩ := holds_body hbody
  refine Follows.bind (follows_evaluate hcondition heol hbearing) fun value other hvalue => ?_
  subst hvalue
  by_cases htruthy : value.isTruthy = true
  · simp only [if_pos htruthy]
    exact Follows.of_pure (stands_body hbody)
  · simp only [if_neg htruthy]
    exact hothers

/-- The clause that is taken stands where it was found. -/
theorem follows_firstTaken : ∀ {start : Nat} (branches : Branches),
    code.Holds start branches.tokens →
      Follows (σ := σ) (firstTaken code (branches.clauses start)) branches.choose (Takes code)
  | start, .elif word condition body rest, h => by
    simp only [Branches.tokens, Code.Holds.cons_iff, Code.Holds.append_iff] at h
    obtain ⟨-, hcondition, hbody, hrest⟩ := h
    exact follows_clause hcondition hbody (follows_firstTaken rest hrest)
  | start, .last ending, h => by
    have hending := stands_ending h
    cases ending with
    | close word => exact Follows.of_pure hending
    | otherwise word body close => exact Follows.of_pure hending

theorem follows_branch {word : Mark} {condition : Run} {body : Body} {branches : Branches}
    (h : code.Holds start (Statement.branch word condition body branches).tokens) :
    Follows (σ := σ) (branch code start) (Statement.head (.branch word condition body branches))
      (Continues code (start + (Statement.branch word condition body branches).tokens.length)) := by
  have hparts := h
  simp only [Statement.tokens, Code.Holds.cons_iff, Code.Holds.append_iff] at hparts
  obtain ⟨-, hcondition, hbody, hbranches⟩ := hparts
  have hword : ((word.keyword .ifClause).isKeyword .ifClause ||
      (word.keyword .ifClause).isKeyword .elifClause) = true := by
    simp [Token.isKeyword, Mark.keyword]
  have hclauses := returns_clause hword h
    (returns_clauses (σ := σ) branches (#[].push (clauseAt start condition body)) hbranches)
  have hnext : branches.stop (start + 1 + condition.tokens.length + body.tokens.length) + 1 =
      start + (Statement.branch word condition body branches).tokens.length := by
    rw [Branches.stop_succ]
    simp only [Statement.tokens, List.length_cons, List.length_append]
    omega
  refine Follows.bind_left hclauses ?_
  simp only [hnext, List.push_toArray, List.nil_append, List.append_toArray, List.singleton_append]
  have htaken := follows_clause hcondition hbody (follows_firstTaken (σ := σ) branches hbranches)
  rw [← bind_pure (Statement.head _)]
  refine Follows.bind htaken fun extent? task hstands => ?_
  cases extent? with
  | none => exact Follows.of_pure (Or.inr ⟨rfl, hstands⟩)
  | some extent => exact Follows.of_pure (Or.inr ⟨rfl, hstands⟩)

theorem follows_while {word : Mark} {condition : Run} {body : Body} {ending : Ending} (line : Nat)
    (h : code.Holds start (Statement.whileLoop word condition body ending).tokens) :
    Follows (σ := σ) (TokenScript.Statement.whileLoop code start line)
      (Statement.head (.whileLoop word condition body ending))
      (Continues code
        (start + (Statement.whileLoop word condition body ending).tokens.length)) := by
  have hparts := h
  simp only [Statement.tokens, Code.Holds.cons_iff, Code.Holds.append_iff] at hparts
  obtain ⟨-, hcondition, hbody, hending⟩ := hparts
  obtain ⟨eol, heol, hbearing⟩ := holds_body hbody
  obtain ⟨opener, hopener, hkeyword⟩ := holds_ending hending
  have hend := Expression.endFrom_eq hcondition condition.bearing heol hbearing
  have hscan : BlockPolicy.loop.scan code.tokens (start + 1) 0 =
      some ⟨start + 1 + condition.tokens.length + body.tokens.length, ending.word⟩ := by
    rw [scan_run hcondition condition.bearing]
    exact scan_body_stop (by simp [BlockPolicy.all]) hbody hopener hkeyword ending.word_mem_loop
  have hnext : ending.stop (start + 1 + condition.tokens.length + body.tokens.length) + 1 =
      start + (Statement.whileLoop word condition body ending).tokens.length := by
    rw [Ending.stop_succ]
    simp only [Statement.tokens, List.length_cons, List.length_append]
    omega
  refine Follows.bind_left (returns_closeOf hscan) ?_
  refine Follows.bind_left (returns_loopElse hending) ?_
  refine Follows.of_pure (Or.inr ⟨congrArg some hnext, ?_⟩)
  rw [hend]
  exact Stands.whileLoop line 0 h.2

theorem follows_for {word inWord toWord : Mark} {name : Name} {first last : Bound} {body : Body}
    {ending : Ending} (line : Nat)
    (h : code.Holds start
      (Statement.forLoop word name inWord first toWord last body ending).tokens) :
    Follows (σ := σ) (TokenScript.Statement.forLoop code start line)
      (Statement.head (.forLoop word name inWord first toWord last body ending))
      (Continues code (start +
        (Statement.forLoop word name inWord first toWord last body ending).tokens.length)) := by
  simp only [Statement.tokens, Code.Holds.cons_iff, Code.Holds.append_iff] at h
  obtain ⟨hword, hname, hin, hfirst, hto, hlast, hbody, hending⟩ := h
  obtain ⟨eol, heol, hbearing⟩ := holds_body hbody
  obtain ⟨opener, hopener, hkeyword⟩ := holds_ending hending
  have hfirstEnd : Expression.endFrom code.tokens (start + 3) = start + 3 + first.tokens.length :=
    Expression.endFrom_eq hfirst first.bearing hto rfl
  have hlastEnd := Expression.endFrom_eq hlast last.bearing heol hbearing
  have hfirstLength := List.length_pos_iff.2 first.ne_nil
  have hlastLength := List.length_pos_iff.2 last.ne_nil
  have hscan : BlockPolicy.loop.scan code.tokens (start + 1) 0 =
      some ⟨start + 3 + first.tokens.length + 1 + last.tokens.length + body.tokens.length,
        ending.word⟩ := by
    rw [BlockPolicy.scan_of_not_keyword hname rfl,
      BlockPolicy.scan_plain (by simp [BlockPolicy.all]) hin rfl (by simp),
      scan_run hfirst first.bearing,
      BlockPolicy.scan_plain (by simp [BlockPolicy.all]) hto rfl (by simp),
      scan_run hlast last.bearing]
    exact scan_body_stop (by simp [BlockPolicy.all]) hbody hopener hkeyword ending.word_mem_loop
  have hnext :
      ending.stop
          (start + 3 + first.tokens.length + 1 + last.tokens.length + body.tokens.length) + 1 =
        start +
          (Statement.forLoop word name inWord first toWord last body ending).tokens.length := by
    rw [Ending.stop_succ]
    simp only [Statement.tokens, List.length_cons, List.length_append]
    omega
  -- the form of the statement is checked first, and then the bounds are evaluated
  refine Follows.bind_left (returns_expectName hname _) ?_
  refine Follows.bind_left (returns_expectKeyword hin) ?_
  simp only [hfirstEnd, hlastEnd]
  refine Follows.bind_left (returns_expectKeyword hto) ?_
  refine Follows.bind_left (returns_expectBound (by omega) _) ?_
  refine Follows.bind_left (returns_expectBound (by omega) _) ?_
  refine Follows.bind_left (returns_closeOf hscan) ?_
  refine Follows.bind_left (returns_loopElse hending) ?_
  simp only [hnext]
  refine Follows.bind (follows_bound _ hfirst hto rfl) fun low other hlow => ?_
  subst hlow
  cases low with
  | none => exact Follows.of_pure (continues_done _ _)
  | some low =>
    refine Follows.bind (follows_bound _ hlast heol hbearing) fun high other hhigh => ?_
    subst hhigh
    cases high with
    | none => exact Follows.of_pure (continues_done _ _)
    | some high =>
      refine Follows.of_pure (Or.inr ⟨rfl, ?_⟩)
      exact Stands.forLoop name.text low.toInt high.toInt low.toInt line
        (Code.Holds.append_iff.2 ⟨hbody, hending⟩)

/-- **Heads.**  Executing the token at which a statement stands, with a line end after the
statement, does what the head of the statement does.  It goes on with what is left of the statement,
and then at the line end. -/
theorem follows_execute {statement : Statement} {eol : Mark}
    (h : code.Holds start statement.tokens)
    (heol : code.tokens[start + statement.tokens.length]? = some eol.newline) :
    Follows (σ := σ) (execute code start) statement.head
      (Continues code (start + statement.tokens.length)) := by
  cases statement with
  | print word run =>
    have hlength : start + (Statement.print word run).tokens.length =
        start + 1 + run.tokens.length := by
      simp only [Statement.tokens, List.length_cons]
      omega
    rw [hlength] at heol ⊢
    exact Follows.bind_left (returns_tokenAt h.1) (follows_print h.2 heol)
  | assign name sign run =>
    have hlength : start + (Statement.assign name sign run).tokens.length =
        start + 2 + run.tokens.length := by
      simp only [Statement.tokens, List.length_cons]
      omega
    rw [hlength] at heol ⊢
    exact Follows.bind_left (returns_tokenAt h.1) (follows_assignment h.2.1 h.2.2 heol)
  | input word name =>
    exact Follows.bind_left (returns_tokenAt h.1) (follows_input h.2.1)
  | exit word =>
    refine Follows.bind_left (returns_tokenAt h.1) ?_
    exact Follows.bind_left (returns_note _) (Follows.of_pure (Or.inl ⟨rfl, rfl⟩))
  | exec word name =>
    exact Follows.bind_left (returns_tokenAt h.1) (follows_exec h.2.1)
  | call name =>
    exact Follows.bind_left (returns_tokenAt h.1) (follows_named heol)
  | branch word condition body branches =>
    exact Follows.bind_left (returns_tokenAt h.1) (follows_branch h)
  | whileLoop word condition body ending =>
    exact Follows.bind_left (returns_tokenAt h.1) (follows_while _ h)
  | forLoop word name inWord first toWord last body ending =>
    exact Follows.bind_left (returns_tokenAt h.1) (follows_for _ h)
  | func word name body leave =>
    have hlength : start + (Statement.func word name body leave).tokens.length =
        start + 2 + body.tokens.length + 1 := by
      simp only [Statement.tokens, List.length_cons, List.length_append, List.length_nil]
      omega
    have hparts := h
    simp only [Statement.tokens, Code.Holds.cons_iff, Code.Holds.append_iff] at hparts
    obtain ⟨-, hname, hbody, hleave, -⟩ := hparts
    rw [hlength]
    exact Follows.bind_left (returns_tokenAt h.1) (follows_define hname hbody hleave)

end

end Program
end TokenScript
