import TokenScript.Proofs.Conduct

/-!
# What a statement says

A statement tells of the failures that it meets: one line for each, at the moment when it is met,
and nothing else is made of the failure.  Besides, `print` writes a line and `input` asks for one.
This file says for each statement which failures it meets, as a function of the code, the variables
and the functions, and shows that these are all the exchanges with the console, in this order, up to
the first that the console fails.

There is one exception.  A bound of `for` that is no integer is a failure.  But the value `nothing`
is also what an evaluation leaves that has failed and was reported, so a bound that is worth
`nothing` of itself, for instance because a variable is, is taken for one of these and passed over
in silence.

The form of a statement is checked first, in silence: a statement that is malformed meets no
failure.  What is said after that is different for each statement, so they are gone through one by
one.

* `Console.exchanges`: exchanges with a console, up to the first that fails.
* `Statement.failures`: what a statement meets; `Statement.passesOver`: whether it keeps that to
  itself.
* `Statement.utterance`: what a statement says of its own.
* `Manner.silent`: to look at forms.
* `Speaks`, `Tells`: triples for actions and the exchanges that they make.
* `tells_execute`: every statement.
-/

namespace TokenScript

open TokenScript.Action

variable {σ : Type}

/-! ## Exchanges -/

namespace Console

variable [Console σ]

/-- One exchange with a console: the reason why it fails, if it does, and the console afterwards. -/
def exchange (console : σ) : Exchange → Option String × σ
  | .prompt text =>
    match readLine text console with
    | (.ok _, after) => (none, after)
    | (.error reason, after) => (some reason, after)
  | .line text =>
    match writeLine text console with
    | (.ok _, after) => (none, after)
    | (.error reason, after) => (some reason, after)

/-- Exchanges one after another, up to the first that fails. -/
def exchanges (console : σ) : List Exchange → Option String × σ
  | [] => (none, console)
  | first :: rest =>
    match exchange console first with
    | (none, after) => exchanges after rest
    | (some reason, after) => (some reason, after)

theorem exchanges_append_of_none {console after : σ} {first : List Exchange}
    (h : exchanges console first = (none, after)) (second : List Exchange) :
    exchanges console (first ++ second) = exchanges after second := by
  induction first generalizing console with
  | nil =>
    obtain ⟨-, rfl⟩ := Prod.mk.inj h
    rfl
  | cons e first ih =>
    rw [List.cons_append, exchanges]
    rw [exchanges] at h
    revert h
    rcases exchange console e with ⟨_ | reason, next⟩
    · exact ih
    · exact nofun

theorem exchanges_append_of_some {console after : σ} {reason : String} {first : List Exchange}
    (h : exchanges console first = (some reason, after)) (second : List Exchange) :
    exchanges console (first ++ second) = (some reason, after) := by
  induction first generalizing console with
  | nil => cases h
  | cons e first ih =>
    rw [List.cons_append, exchanges]
    rw [exchanges] at h
    revert h
    rcases exchange console e with ⟨_ | reason, next⟩
    · exact ih
    · exact id

/-- A console of given lines never fails. -/
theorem exchanges_buffered (console : Buffered) (said : List Exchange) :
    (exchanges console said).1 = none := by
  induction said generalizing console with
  | nil => rfl
  | cons e said ih =>
    obtain ⟨inputs, transcript⟩ := console
    cases e with
    | line text => exact ih _
    | prompt text => cases inputs <;> exact ih _

end Console

/-- The exchange that tells of a failure. -/
def Failure.told (failure : Failure) : Console.Exchange :=
  .line ("Error evaluating expression: " ++ failure.cause.message)

/-! ## What statements meet -/

namespace Expression

/-- The failures of evaluating the expression at an index: one, or none. -/
def failuresAt (code : Code) (start : Nat) (store : Store) : List Failure :=
  match evaluateFrom code.tokens start store with
  | .ok _ => []
  | .error failure => [failure]

/-- What the expression at an index is worth; one that fails is worth `nothing`. -/
def valueAt (code : Code) (start : Nat) (store : Store) : Value :=
  match evaluateFrom code.tokens start store with
  | .ok value => value
  | .error _ => .nothing

/-- Whether the expression at an index is worth `nothing` without having failed. -/
def isNothingAt (code : Code) (start : Nat) (store : Store) : Bool :=
  match evaluateFrom code.tokens start store with
  | .ok .nothing => true
  | _ => false

end Expression

namespace Statement

/-- The failures of the conditions that are evaluated until one holds. -/
def conditionFailures (code : Code) (store : Store) : List Clause → List Failure
  | [] => []
  | clause :: rest =>
    match clause.condition with
    | none => []
    | some condition =>
      Expression.failuresAt code condition store ++
        if (Expression.valueAt code condition store).isTruthy then []
        else conditionFailures code store rest

/-- The failures of a bound: its evaluation fails, or it is no integer. -/
def boundFailures (code : Code) (start anchor : Nat) (store : Store) : List Failure :=
  match Expression.evaluateFrom code.tokens start store with
  | .error failure => [failure]
  | .ok (.int _) => []
  | .ok value =>
    match code.tokens[min anchor (code.size - 1)]? with
    | some t => [⟨.boundNotInteger value.kind, t.span⟩]
    | none => []

/-- The failures of a bound that are told: none if it is worth `nothing` without having failed. -/
def boundReports (code : Code) (start anchor : Nat) (store : Store) : List Failure :=
  if Expression.isNothingAt code start store then [] else boundFailures code start anchor store

/-- The integer that a bound comes to. -/
def boundAt (code : Code) (start : Nat) (store : Store) : Option Int64 :=
  match Expression.valueAt code start store with
  | .int n => some n
  | _ => none

/-- The failures of the bounds of `for`; the second is not evaluated if the first is no integer. -/
def forFailures (code : Code) (start : Nat) (store : Store) : List Failure :=
  let toWord := Expression.endFrom code.tokens (start + 3)
  boundFailures code (start + 3) toWord store ++
    if (boundAt code (start + 3) store).isSome then
      boundFailures code (toWord + 1) (toWord + 1) store
    else []

/-- The failures of the bounds of `for` that are told. -/
def forReports (code : Code) (start : Nat) (store : Store) : List Failure :=
  let toWord := Expression.endFrom code.tokens (start + 3)
  boundReports code (start + 3) toWord store ++
    if (boundAt code (start + 3) store).isSome then
      boundReports code (toWord + 1) (toWord + 1) store
    else []

/-- The bound of `for` that is evaluated last: the second one, if the first one is an integer. -/
def lastBound (code : Code) (start : Nat) (store : Store) : Nat :=
  if (boundAt code (start + 3) store).isSome then
    Expression.endFrom code.tokens (start + 3) + 1
  else start + 3

/-- Whether the last bound of `for` that is evaluated is worth `nothing` without having failed. -/
def forPassesOver (code : Code) (start : Nat) (store : Store) : Bool :=
  Expression.isNothingAt code (lastBound code start store) store

/-- The failures that the statement at an index meets. -/
def failures (code : Code) (start : Nat) (world : World σ) : List Failure :=
  let store := world.context.store
  match code.tokens[start]? with
  | none => []
  | some t =>
    match t.kind with
    | .identifier _ =>
      if (code.tokens[start + 1]?).any fun t => t.kind = .assignment then
        Expression.failuresAt code (start + 2) store
      else []
    | .keyword .print =>
      if Expression.endFrom code.tokens (start + 1) = start + 1 then []
      else Expression.failuresAt code (start + 1) store
    | .keyword .exec =>
      match code.name? (start + 1) with
      | some (name, span) =>
        if (world.context.functions.get? name).isNone then [⟨.undefinedFunction name, span⟩] else []
      | none => []
    | .keyword .ifClause =>
      match (clauses code start #[]).run world with
      | .ok found _ => conditionFailures code store found.1.toList
      | .error _ _ => []
    | .keyword .forLoop =>
      match (forForm code start).run world with
      | .ok _ _ => forFailures code start store
      | .error _ _ => []
    | _ => []

/-- What the statement at an index says of its own: the line of `print`, or the prompt of
`input`. -/
def utterance (code : Code) (start : Nat) (world : World σ) : List Console.Exchange :=
  match code.tokens[start]? with
  | none => []
  | some t =>
    match t.kind with
    | .keyword .print =>
      if Expression.endFrom code.tokens (start + 1) = start + 1 then [.line ""]
      else [.line (Expression.valueAt code (start + 1) world.context.store).display]
    | .keyword .input =>
      match code.name? (start + 1) with
      | some (name, _) => [.prompt ("Enter value for " ++ name ++ ": ")]
      | none => []
    | _ => []

/-- Whether the statement at an index is a `for` that passes over a bound in silence. -/
def passesOver (code : Code) (start : Nat) (world : World σ) : Bool :=
  match code.tokens[start]? with
  | none => false
  | some t =>
    match t.kind with
    | .keyword .forLoop =>
      match (forForm code start).run world with
      | .ok _ _ => forPassesOver code start world.context.store
      | .error _ _ => false
    | _ => false

/-- The failures that the statement at an index tells of. -/
def reports (code : Code) (start : Nat) (world : World σ) : List Failure :=
  if passesOver code start world then [] else failures code start world

/-- All that the statement at an index says. -/
def said (code : Code) (start : Nat) (world : World σ) : List Console.Exchange :=
  (reports code start world).map Failure.told ++ utterance code start world

/-- A bound that is an integer has no failure. -/
theorem boundFailures_of_boundAt {code : Code} {start : Nat} {store : Store} {n : Int64}
    (h : boundAt code start store = some n) (anchor : Nat) :
    boundFailures code start anchor store = [] := by
  unfold boundAt Expression.valueAt at h
  unfold boundFailures
  cases hvalue : Expression.evaluateFrom code.tokens start store with
  | error failure => simp [hvalue] at h
  | ok value =>
    cases value with
    | int m => rfl
    | nothing | float | text | bool => simp [hvalue] at h

/-- The bounds of `for` have one failure at most, and it is told unless it is passed over. -/
theorem forReports_eq (code : Code) (start : Nat) (store : Store) :
    forReports code start store =
      if forPassesOver code start store then [] else forFailures code start store := by
  unfold forReports forPassesOver lastBound forFailures boundReports
  dsimp only
  cases hfirst : boundAt code (start + 3) store with
  | none => simp
  | some n => simp [boundFailures_of_boundAt hfirst]

/-- A bound that is worth `nothing` has one failure. -/
theorem exists_boundFailures_of_isNothingAt {code : Code} {start : Nat} {store : Store}
    (hsize : 0 < code.size) (h : Expression.isNothingAt code start store = true) (anchor : Nat) :
    Expression.evaluateFrom code.tokens start store = .ok .nothing ∧
      ∃ span, boundFailures code start anchor store = [⟨.boundNotInteger .nothing, span⟩] := by
  have hlt : min anchor (code.size - 1) < code.tokens.size := by
    change _ < code.size
    omega
  have hvalue : Expression.evaluateFrom code.tokens start store = .ok .nothing := by
    unfold Expression.isNothingAt at h
    split at h
    · assumption
    · cases h
  refine ⟨hvalue, code.tokens[min anchor (code.size - 1)].span, ?_⟩
  simp only [boundFailures, hvalue, Array.getElem?_eq_getElem hlt, Value.kind]

/-- A statement that passes over a bound is a `for`, and the last of its bounds that is evaluated is
worth `nothing`.  This is the one failure. -/
theorem exists_failures_of_passesOver {code : Code} {start : Nat} {world : World σ}
    (h : passesOver code start world = true) :
    (∃ t, code.tokens[start]? = some t ∧ t.kind = .keyword .forLoop) ∧
      Expression.evaluateFrom code.tokens (lastBound code start world.context.store)
        world.context.store = .ok .nothing ∧
      ∃ span, failures code start world = [⟨.boundNotInteger .nothing, span⟩] := by
  unfold passesOver at h
  cases ht : code.tokens[start]? with
  | none => simp [ht] at h
  | some t =>
    have hsize : 0 < code.size := Nat.zero_lt_of_lt (Array.getElem?_eq_some_iff.1 ht).1
    simp only [ht] at h
    split at h
    · next hkind =>
      split at h
      · next hform =>
        simp only [failures, ht, hkind, hform]
        unfold forFailures
        unfold forPassesOver lastBound at h
        unfold lastBound
        dsimp only
        cases hfirst : boundAt code (start + 3) world.context.store with
        | none =>
          simp only [hfirst, Option.isSome_none, Bool.false_eq_true, if_false, List.append_nil]
            at h ⊢
          exact ⟨⟨t, rfl, hkind⟩, exists_boundFailures_of_isNothingAt hsize h _⟩
        | some n =>
          simp only [hfirst, Option.isSome_some, if_true, boundFailures_of_boundAt hfirst,
            List.nil_append] at h ⊢
          exact ⟨⟨t, rfl, hkind⟩, exists_boundFailures_of_isNothingAt hsize h _⟩
      · cases h
    · cases h

/-- A statement that passes over a bound says nothing of its own. -/
theorem utterance_of_passesOver {code : Code} {start : Nat} {world : World σ}
    (h : passesOver code start world = true) : utterance code start world = [] := by
  obtain ⟨⟨t, ht, hkind⟩, -⟩ := exists_failures_of_passesOver h
  simp only [utterance, ht, hkind]

/-- A statement that is no `for` tells of all its failures. -/
theorem said_of_ne {code : Code} {start : Nat} {t : Token} (ht : code.tokens[start]? = some t)
    (hkind : t.kind ≠ .keyword .forLoop) (world : World σ) :
    said code start world =
      (failures code start world).map Failure.told ++ utterance code start world := by
  have hpasses : passesOver code start world = false := by
    rw [passesOver, ht]
    dsimp only
    split
    · next hfor => exact absurd hfor hkind
    · rfl
  rw [said, reports, hpasses]
  rfl

end Statement

/-! ## Silent actions -/

/-- The action was abandoned, but not because of the console. -/
def Abort.Own : Abort → Prop
  | .error e => e.kind ≠ .console
  | .fault => True

/-- Nothing is said to the console, and the context is kept. -/
def Manner.silent : Manner σ where
  Starts _ := True
  Goes world final := final.console = world.console ∧ final.context = world.context
  Stops world abort final := abort.Own ∧ final.console = world.console
  refl _ := ⟨rfl, rfl⟩
  trans hfirst hsecond := ⟨hsecond.1.trans hfirst.1, hsecond.2.trans hfirst.2⟩
  stops_trans hfirst hstops := ⟨hstops.1, hstops.2.trans hfirst.1⟩

theorem silent_closeOf (code : Code) (start : Nat) (policy : BlockPolicy) :
    Manner.silent.Keeps (closeOf (σ := σ) code start policy) fun _ => True := by
  intro world _
  rw [run_closeOf]
  cases world.closes.bind (·[(code.address, start)]?) with
  | some index => exact ⟨trivial, ⟨rfl, rfl⟩, trivial⟩
  | none =>
    cases hclose : policy.close code.tokens start with
    | ok found => exact ⟨trivial, ⟨rfl, rfl⟩, trivial⟩
    | error e =>
      have hkind := BlockPolicy.kind_of_close hclose
      exact ⟨by simp [Abort.Own, hkind], rfl⟩

/-- The form of a statement is looked at in silence. -/
theorem Inspects.silent {α : Type} {code : Code} {x : Routine α} {P : α → Prop}
    (h : Inspects False code x P) (site : Site) : Manner.silent.Keeps (x site) P := by
  refine h.keeps ⟨fun world cause span _ => ?_, fun world _ _ => ⟨trivial, rfl⟩, fun _ => ?_⟩
  · exact ⟨by simp [Abort.Own, Error.kind, Cause.kind], rfl⟩
  · exact (silent_closeOf _ _ _).mono fun _ _ => False.elim

/-! ## Actions that speak -/

variable [Console σ]

section

variable {α β : Type} {world : World σ} {found : List Failure} {said more : List Console.Exchange}
  {Q : α → World σ → Prop} {R : β → World σ → Prop}

/-- The exchanges were made up to one that the console failed, and so the action was abandoned. -/
def Unheard (world : World σ) (said : List Console.Exchange) (abort : Abort)
    (final : World σ) : Prop :=
  ∃ reason, abort = .error ⟨.console reason, .nowhere⟩ ∧
    Console.exchanges world.console said = (some reason, final.console)

/-- The exchanges were all made, or made up to one that the console failed. -/
def Spoken (world : World σ) (said : List Console.Exchange) (Q : α → World σ → Prop) :
    EStateM.Result Abort (World σ) α → Prop
  | .ok u final => Console.exchanges world.console said = (none, final.console) ∧ Q u final
  | .error abort final => Unheard world said abort final

/-- The action makes these exchanges, and only a failure of the console stops it. -/
def Speaks (world : World σ) (x : Action σ α) (said : List Console.Exchange)
    (Q : α → World σ → Prop) : Prop :=
  Spoken world said Q (x.run world)

/-- As before; or there were no failures and nothing was said, and the action was abandoned for a
reason of its own. -/
def Told (world : World σ) (found : List Failure) (said : List Console.Exchange)
    (Q : α → World σ → Prop) : EStateM.Result Abort (World σ) α → Prop
  | .ok u final => Console.exchanges world.console said = (none, final.console) ∧ Q u final
  | .error abort final =>
    Unheard world said abort final ∨
      (found = [] ∧ said = []) ∧ abort.Own ∧ final.console = world.console

/-- The action meets these failures and makes these exchanges, unless it is abandoned in silence and
there are none. -/
def Tells (world : World σ) (x : Action σ α) (found : List Failure) (said : List Console.Exchange)
    (Q : α → World σ → Prop) : Prop :=
  Told world found said Q (x.run world)

namespace Speaks

variable {x : Action σ α} {f : α → Action σ β}

theorem of_pure {u : α} (h : Q u world) : Speaks world (pure u) [] Q := ⟨rfl, h⟩

theorem of_modify {change : World σ → World σ} {Q : PUnit → World σ → Prop}
    (hconsole : (change world).console = world.console) (h : Q ⟨⟩ (change world)) :
    Speaks world (modify change) [] Q :=
  ⟨congrArg (Prod.mk none) hconsole.symm, h⟩

/-- One action after another. -/
theorem bind (hx : Speaks world x said Q) (hf : ∀ u final, Q u final → Speaks final (f u) more R) :
    Speaks world (x >>= f) (said ++ more) R := by
  change Spoken world (said ++ more) R (EStateM.bind x f world)
  unfold Speaks at hx
  simp only [EStateM.run] at hx
  simp only [EStateM.bind]
  revert hx
  cases x world with
  | error abort final =>
    rintro ⟨reason, habort, hsaid⟩
    exact ⟨reason, habort, Console.exchanges_append_of_some hsaid more⟩
  | ok u middle =>
    rintro ⟨hsaid, hQ⟩
    have hsecond := hf u middle hQ
    unfold Speaks at hsecond
    simp only [EStateM.run] at hsecond
    dsimp only
    revert hsecond
    cases f u middle with
    | ok v final =>
      rintro ⟨hmore, hR⟩
      exact ⟨(Console.exchanges_append_of_none hsaid more).trans hmore, hR⟩
    | error abort final =>
      rintro ⟨reason, habort, hmore⟩
      exact ⟨reason, habort, (Console.exchanges_append_of_none hsaid more).trans hmore⟩

/-- One action after another, the second of which says nothing. -/
theorem bind_last (hx : Speaks world x said Q)
    (hf : ∀ u final, Q u final → Speaks final (f u) [] R) :
    Speaks world (x >>= f) said R := by
  have hbind := bind hx hf
  rwa [List.append_nil] at hbind

theorem tells (hx : Speaks world x said Q) : Tells world x found said Q := by
  unfold Speaks at hx
  unfold Tells
  revert hx
  cases x.run world with
  | ok u final => exact id
  | error abort final => exact Or.inl

end Speaks

namespace Tells

variable {x : Action σ α} {f : α → Action σ β}

theorem of_throw {abort : Abort} (h : abort.Own) : Tells world (throw abort) [] [] Q :=
  Or.inr ⟨⟨rfl, rfl⟩, h, rfl⟩

theorem mono {P : α → World σ → Prop} (hx : Tells world x found said P)
    (h : ∀ u final, P u final → Q u final) : Tells world x found said Q := by
  unfold Tells at hx ⊢
  revert hx
  cases x.run world with
  | ok u final => exact fun htold => ⟨htold.1, h u final htold.2⟩
  | error abort final => exact id

/-- An action that starts with a look at the world. -/
theorem bind_get {f : World σ → Action σ α} (h : Tells world (f world) found said Q) :
    Tells world (get >>= f) found said Q := h

/-- A silent action first; if it is abandoned, there are no failures and nothing is said. -/
theorem bind_silent {P : α → Prop} (hx : Manner.silent.Keeps x P)
    (herror : ∀ abort final, x.run world = .error abort final → found = [] ∧ said = [])
    (hok : ∀ u final, x.run world = .ok u final → final.context = world.context →
      Tells final (f u) found said R) : Tells world (x >>= f) found said R := by
  have hkept := hx world trivial
  change Told world found said R (EStateM.bind x f world)
  simp only [EStateM.run] at hkept herror hok
  simp only [EStateM.bind]
  revert hkept herror hok
  cases x world with
  | error abort final => exact fun herror _ hkept => Or.inr ⟨herror abort final rfl, hkept⟩
  | ok u middle =>
    rintro - hok ⟨-, ⟨hconsole, hcontext⟩, -⟩
    have hsecond := hok u middle rfl hcontext
    unfold Tells at hsecond
    simp only [EStateM.run] at hsecond
    dsimp only
    revert hsecond
    cases f u middle with
    | ok v final => exact fun htold => ⟨hconsole ▸ htold.1, htold.2⟩
    | error abort final =>
      rintro (⟨reason, habort, hsaid⟩ | ⟨hnil, hown, hfinal⟩)
      · exact Or.inl ⟨reason, habort, hconsole ▸ hsaid⟩
      · exact Or.inr ⟨hnil, hown, hfinal.trans hconsole⟩

end Tells

end

/-! ## Talking to the console -/

variable {world : World σ} {context : Context} {code : Code}

/-- Whatever the result is, the context is this one. -/
abbrev keeping {α : Type} (context : Context) : α → World σ → Prop :=
  fun _ final => final.context = context

theorem speaks_note (event : Event) (h : world.context = context) :
    Speaks world (note event) [] (keeping context) :=
  Speaks.of_modify rfl h

theorem speaks_readLine (prompt : String) (h : world.context = context) :
    Speaks world (readLine prompt) [.prompt prompt] (keeping context) := by
  unfold Speaks
  rw [run_readLine]
  rcases hread : Console.readLine prompt world.console with ⟨_ | _, console⟩
  · exact ⟨_, rfl, by simp only [Console.exchanges, Console.exchange, hread]⟩
  · exact ⟨by simp only [Console.exchanges, Console.exchange, hread], h⟩

theorem speaks_writeLine (line : String) (h : world.context = context) :
    Speaks world (writeLine line) [.line line] (keeping context) := by
  unfold Speaks
  rw [run_writeLine]
  rcases hwrite : Console.writeLine line world.console with ⟨_ | _, console⟩
  · exact ⟨_, rfl, by simp only [Console.exchanges, Console.exchange, hwrite]⟩
  · exact ⟨by simp only [Console.exchanges, Console.exchange, hwrite], h⟩

/-- A report is one line. -/
theorem speaks_report (failure : Failure) (h : world.context = context) :
    Speaks world (report failure) [failure.told] (keeping context) :=
  Speaks.bind (speaks_note _ h) fun _ _ hnoted => speaks_writeLine _ hnoted

theorem speaks_evaluate (start : Nat) (h : world.context = context) :
    Speaks world (evaluate code start)
      ((Expression.failuresAt code start context.store).map Failure.told)
      fun value final => value = Expression.valueAt code start context.store ∧
        final.context = context := by
  subst h
  unfold Speaks
  rw [evaluate, run_get_bind, Expression.failuresAt, Expression.valueAt]
  cases Expression.evaluateFrom code.tokens start world.context.store with
  | ok value => exact Speaks.of_pure ⟨rfl, rfl⟩
  | error failure =>
    exact Speaks.bind (speaks_report failure rfl) fun _ _ hfinal => Speaks.of_pure ⟨rfl, hfinal⟩

/-! ## Statements -/

/-- The conditions of clauses, one after another. -/
theorem speaks_firstTaken (clauses : List Statement.Clause) (h : world.context = context) :
    Speaks world (Statement.firstTaken code clauses)
      ((Statement.conditionFailures code context.store clauses).map Failure.told)
      (keeping context) := by
  induction clauses generalizing world with
  | nil => exact Speaks.of_pure h
  | cons clause rest ih =>
    rw [Statement.firstTaken, Statement.conditionFailures]
    cases clause.condition with
    | none => exact Speaks.of_pure h
    | some condition =>
      dsimp only
      rw [List.map_append]
      refine Speaks.bind (speaks_evaluate condition h) ?_
      rintro value final ⟨rfl, hfinal⟩
      split
      · exact Speaks.of_pure hfinal
      · exact ih hfinal

theorem speaks_bound (start anchor : Nat) (hsize : 0 < code.size) (h : world.context = context) :
    Speaks world (Statement.bound code start anchor)
      ((Statement.boundReports code start anchor context.store).map Failure.told)
      fun n final => n = Statement.boundAt code start context.store ∧ final.context = context := by
  have hlt : min anchor (code.size - 1) < code.tokens.size := by
    change _ < code.size
    omega
  have hevaluate : Speaks world (Action.evaluate code start) _ _ := speaks_evaluate start h
  unfold Statement.bound Statement.boundReports Statement.boundFailures Statement.boundAt
    Expression.isNothingAt
  unfold Expression.failuresAt Expression.valueAt at hevaluate
  unfold Expression.valueAt
  cases hvalue : Expression.evaluateFrom code.tokens start context.store with
  | error failure =>
    simp only [hvalue] at hevaluate
    refine Speaks.bind_last hevaluate ?_
    rintro value final ⟨rfl, hfinal⟩
    exact Speaks.of_pure ⟨rfl, hfinal⟩
  | ok value =>
    simp only [hvalue, List.map_nil] at hevaluate
    refine Speaks.bind hevaluate ?_
    rintro value final ⟨rfl, hfinal⟩
    cases value with
    | int n => exact Speaks.of_pure ⟨rfl, hfinal⟩
    | nothing => exact Speaks.of_pure ⟨rfl, hfinal⟩
    | float | text | bool =>
      simp only [tokenAt, Array.getElem?_eq_getElem hlt, pure_bind]
      exact Speaks.bind (speaks_report _ hfinal) fun _ _ hreported =>
        Speaks.of_pure ⟨rfl, hreported⟩

/-- Nothing is said of a result. -/
abbrev anyResult {α : Type} : α → World σ → Prop := fun _ _ => True

/-- The statement goes on. -/
abbrev goingOn : Flow → World σ → Prop := fun flow _ => flow ≠ .exit

theorem speaks_advance (next : Nat) : Speaks world (pure (.advance next)) [] goingOn :=
  Speaks.of_pure (Q := goingOn) nofun

variable {start : Nat} {t : Token}

theorem speaks_print (ht : code.tokens[start]? = some t) (hkind : t.kind = .keyword .print) :
    Speaks world (Statement.print code start) (Statement.said code start world) goingOn := by
  rw [Statement.said_of_ne ht (by simp [hkind])]
  simp only [Statement.failures, Statement.utterance, ht, hkind, Statement.print]
  split
  · exact Speaks.bind_last (speaks_writeLine _ rfl) fun _ _ _ => speaks_advance _
  · refine Speaks.bind (speaks_evaluate (start + 1) rfl) ?_
    rintro value final ⟨rfl, hfinal⟩
    exact Speaks.bind_last (speaks_writeLine _ hfinal) fun _ _ _ => speaks_advance _

/-- Where a name is missing, nothing is said. -/
theorem tells_expectName_of_none {α : Type} {index : Nat} (h : code.name? index = none)
    (after : Keyword) (f : String × Span → Action σ α) {Q : α → World σ → Prop} :
    Tells world (Statement.expectName code index after >>= f) [] [] Q := by
  refine Tells.bind_silent ((inspects_expectName index after).silent ⟨code.address⟩)
    (fun _ _ _ => ⟨rfl, rfl⟩) ?_
  intro named final hrun
  have hrefuse : Statement.expectName (σ := σ) code index after =
      Statement.refuse code index (.nameExpected after) := by
    unfold Statement.expectName
    cases ht : code.tokens[index]? with
    | none => rfl
    | some t =>
      cases hname : t.identifier? with
      | none => simp only [hname]
      | some name => simp [Code.name?, ht, hname] at h
  rw [hrefuse, Statement.refuse] at hrun
  split at hrun <;> cases hrun

theorem tells_input (ht : code.tokens[start]? = some t) (hkind : t.kind = .keyword .input) :
    Tells world (Statement.input code start) (Statement.failures code start world)
      (Statement.said code start world) goingOn := by
  rw [Statement.said_of_ne ht (by simp [hkind])]
  simp only [Statement.failures, Statement.utterance, ht, hkind, List.map_nil, List.nil_append,
    Statement.input]
  cases hname : code.name? (start + 1) with
  | none => exact tells_expectName_of_none hname _ _
  | some named =>
    obtain ⟨name, span⟩ := named
    simp only [expectName_of_some hname, pure_bind]
    refine (Speaks.bind_last (speaks_readLine _ rfl) fun line _ _ => ?_).tells
    refine Speaks.bind_last (speaks_note _ rfl) fun _ _ _ => ?_
    refine Speaks.bind_last (Speaks.of_modify (Q := anyResult) rfl trivial) fun _ _ _ => ?_
    exact speaks_advance _

/-- A call starts, or is one too many. -/
theorem tells_invoke (name : String) (span : Span) (next : Nat) :
    Tells world
      (do
        let body ← Statement.invoke name span
        pure (Flow.call body next))
      [] [] goingOn := by
  have hinvoke := Statement.run_invoke name span world
  change Told world [] [] goingOn (EStateM.bind _ _ world)
  simp only [EStateM.run] at hinvoke
  simp only [EStateM.bind, hinvoke]
  have hown : ∀ cause, Abort.Own (.error ⟨.evaluation cause, span⟩) := by
    simp [Abort.Own, Error.kind, Cause.kind]
  cases world.context.functions.get? name with
  | none => exact Or.inr ⟨⟨rfl, rfl⟩, hown _, rfl⟩
  | some body =>
    by_cases hlimit : world.context.callLimit ≤ world.context.depth
    · simp only [hlimit, if_true]
      exact Or.inr ⟨⟨rfl, rfl⟩, hown _, rfl⟩
    · simp only [hlimit, if_false]
      exact ⟨rfl, nofun⟩

theorem tells_call (ht : code.tokens[start]? = some t) (hkind : t.kind = .keyword .exec) :
    Tells world (Statement.call code start) (Statement.failures code start world)
      (Statement.said code start world) goingOn := by
  rw [Statement.said_of_ne ht (by simp [hkind])]
  simp only [Statement.failures, Statement.utterance, ht, hkind, List.append_nil, Statement.call]
  cases hname : code.name? (start + 1) with
  | none => exact tells_expectName_of_none hname _ _
  | some named =>
    obtain ⟨name, span⟩ := named
    simp only [expectName_of_some hname, pure_bind]
    refine Tells.bind_get ?_
    cases world.context.functions.get? name with
    | none =>
      refine Speaks.tells ?_
      exact Speaks.bind_last (speaks_report _ rfl) fun _ _ _ => speaks_advance _
    | some body => exact tells_invoke name span _

theorem tells_named {name : String} (ht : code.tokens[start]? = some t)
    (hkind : t.kind = .identifier name) (span : Span) :
    Tells world (Statement.named code start name span) (Statement.failures code start world)
      (Statement.said code start world) goingOn := by
  rw [Statement.said_of_ne ht (by simp [hkind])]
  simp only [Statement.failures, Statement.utterance, ht, hkind, List.append_nil, Statement.named]
  split
  · refine (Speaks.bind_last (speaks_evaluate (start + 2) rfl) fun value middle _ => ?_).tells
    refine Speaks.bind_last (speaks_note _ rfl) fun _ noted _ => ?_
    refine Speaks.bind_last (Speaks.of_modify (Q := anyResult) rfl trivial) fun _ _ _ => ?_
    exact speaks_advance _
  · refine Tells.bind_get ?_
    cases world.context.functions.get? name with
    | some body => exact tells_invoke name span _
    | none =>
      refine Speaks.tells ?_
      exact Speaks.bind_last (speaks_note _ rfl) fun _ _ _ => speaks_advance _

theorem tells_define (hword : code.wordAt? start = some .func) :
    Tells world (Statement.define code start) [] [] anyResult := by
  rw [define_eq]
  refine Tells.bind_silent ((inspects_defineForm hword).silent ⟨code.address⟩)
    (fun _ _ _ => ⟨rfl, rfl⟩) fun form _ _ _ => ?_
  split
  · refine (Speaks.bind_last (Q := anyResult) ?_ fun _ _ _ => Speaks.of_pure trivial).tells
    refine Speaks.bind_last (speaks_note _ rfl) fun _ _ _ => ?_
    refine Speaks.bind_last (Speaks.of_modify (Q := anyResult) rfl trivial) fun _ _ _ => ?_
    exact Speaks.of_modify (Q := anyResult) rfl trivial
  · exact Tells.of_throw trivial

theorem tells_whileLoop (hword : code.wordAt? start = some .whileLoop) (line : Nat) :
    Tells world (Statement.whileLoop code start line) [] [] anyResult := by
  have hpolicy := Code.policyAt?_of_wordAt? hword
  rw [whileLoop_eq]
  refine Tells.bind_silent ((inspects_loopForm hpolicy).silent ⟨code.address⟩)
    (fun _ _ _ => ⟨rfl, rfl⟩) fun form _ _ _ => ?_
  exact Speaks.tells (Speaks.of_pure trivial)

theorem tells_branch (ht : code.tokens[start]? = some t) (hkind : t.kind = .keyword .ifClause) :
    Tells world (Statement.branch code start) (Statement.failures code start world)
      (Statement.said code start world) goingOn := by
  rw [Statement.said_of_ne ht (by simp [hkind])]
  simp only [Statement.failures, Statement.utterance, ht, hkind, List.append_nil]
  have hstart : start < code.size := (Array.getElem?_eq_some_iff.1 ht).1
  refine Tells.bind_silent ((inspects_clauses #[] fun _ => hstart).silent ⟨code.address⟩)
    (fun abort final hrun => ?_) fun found final hrun hfinal => ?_
  · rw [hrun]
    exact ⟨rfl, rfl⟩
  · rw [hrun]
    refine (Speaks.bind_last (speaks_firstTaken _ hfinal) fun taken _ _ => ?_).tells
    cases taken with
    | none => exact speaks_advance _
    | some body => exact Speaks.of_pure (Q := goingOn) nofun

theorem tells_forLoop (ht : code.tokens[start]? = some t) (hkind : t.kind = .keyword .forLoop)
    (line : Nat) :
    Tells world (Statement.forLoop code start line) (Statement.failures code start world)
      (Statement.said code start world) goingOn := by
  have hsize : 0 < code.size := Nat.zero_lt_of_lt (Array.getElem?_eq_some_iff.1 ht).1
  simp only [Statement.said, Statement.reports, Statement.passesOver, Statement.failures,
    Statement.utterance, ht, hkind, List.append_nil]
  rw [forLoop_eq]
  have hword : code.wordAt? start = some .forLoop :=
    Code.wordAt?_of_isKeyword ht (decide_eq_true hkind)
  have hpolicy := Code.policyAt?_of_wordAt? hword
  refine Tells.bind_silent ((inspects_forForm hpolicy).silent ⟨code.address⟩)
    (fun abort final hrun => ?_) fun form final hrun hfinal => ?_
  · rw [hrun]
    exact ⟨rfl, rfl⟩
  · rw [hrun]
    dsimp only
    rw [← Statement.forReports_eq, Statement.forReports, List.map_append]
    refine (Speaks.bind (speaks_bound _ _ hsize hfinal) ?_).tells
    rintro low middle ⟨rfl, hmiddle⟩
    cases Statement.boundAt code (start + 3) world.context.store with
    | none => exact speaks_advance _
    | some low =>
      refine Speaks.bind_last (speaks_bound _ _ hsize hmiddle) fun high _ _ => ?_
      cases high with
      | none => exact speaks_advance _
      | some high => exact Speaks.of_pure (Q := goingOn) nofun

/-- A statement that only notes something. -/
theorem tells_noted (event : Event) (flow : Flow) :
    Tells world
      (do
        note event
        pure flow)
      [] [] anyResult :=
  (Speaks.bind_last (speaks_note event rfl) fun _ _ _ => Speaks.of_pure trivial).tells

/-- What a statement says. -/
theorem tells_execute (hstart : start < code.size) :
    Tells world (Statement.execute code start) (Statement.failures code start world)
      (Statement.said code start world) fun flow _ => flow = .exit →
      Statement.failures code start world = [] := by
  obtain ⟨t, ht⟩ : ∃ t, code.tokens[start]? = some t := ⟨_, Array.getElem?_eq_getElem hstart⟩
  have htoken : tokenAt (σ := σ) code start = pure t := by
    simp only [tokenAt, ht]
  have hgoes : ∀ {x : Action σ Flow},
      Tells world x (Statement.failures code start world)
        (Statement.said code start world) goingOn →
      Tells world x (Statement.failures code start world) (Statement.said code start world)
        fun flow _ => flow = .exit → Statement.failures code start world = [] := by
    intro x hx
    exact hx.mono fun flow final hflow hexit => absurd hexit hflow
  have hquiet : ∀ {x : Action σ Flow}, t.kind ≠ .keyword .forLoop →
      Statement.failures code start world = [] → Statement.utterance code start world = [] →
      Tells world x [] [] anyResult →
      Tells world x (Statement.failures code start world) (Statement.said code start world)
        fun flow _ => flow = .exit → Statement.failures code start world = [] := by
    intro x hfor hfailures hutterance hx
    rw [Statement.said_of_ne ht hfor, hfailures, hutterance]
    exact hx.mono fun _ _ _ _ => rfl
  simp only [Statement.execute, htoken, pure_bind]
  cases hkind : t.kind with
  | newline =>
    refine hquiet (by simp [hkind]) ?_ ?_ (Speaks.tells (Speaks.of_pure trivial)) <;>
      simp only [Statement.failures, Statement.utterance, ht, hkind]
  | identifier name => exact hgoes (tells_named ht hkind t.span)
  | keyword word =>
    have hword := Code.wordAt?_of_isKeyword ht (decide_eq_true hkind)
    cases word with
    | input => exact hgoes (tells_input ht hkind)
    | print => exact hgoes (speaks_print ht hkind).tells
    | ifClause => exact hgoes (tells_branch ht hkind)
    | forLoop => exact hgoes (tells_forLoop ht hkind t.span.line)
    | exec => exact hgoes (tells_call ht hkind)
    | whileLoop =>
      refine hquiet (by simp [hkind]) ?_ ?_ (tells_whileLoop hword t.span.line) <;>
        simp only [Statement.failures, Statement.utterance, ht, hkind]
    | func =>
      refine hquiet (by simp [hkind]) ?_ ?_ (tells_define hword) <;>
        simp only [Statement.failures, Statement.utterance, ht, hkind]
    | exit | elifClause | elseClause | endBlock | leave | inBound | toBound =>
      refine hquiet (by simp [hkind]) ?_ ?_ (tells_noted _ _) <;>
        simp only [Statement.failures, Statement.utterance, ht, hkind]
  | operator _ | assignment | number _ | text _ =>
    refine hquiet (by simp [hkind]) ?_ ?_ (tells_noted _ _) <;>
      simp only [Statement.failures, Statement.utterance, ht, hkind]

end TokenScript
