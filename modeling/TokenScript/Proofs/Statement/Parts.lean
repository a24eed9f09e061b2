import Mathlib.Logic.Basic
import TokenScript.Proofs.Memo.Invariant

/-!
# The parts of statements

A statement is made of tokens that stand at places of its own: the name that it is about, the words
and the bounds of its head, and the closes of its clauses.  When it has been executed it names
places where to go on.  This file says what these parts are and where they lie.  It also splits the
statements that have a form from what they do once the form is known to be right.

* `Code.wordAt?`, `Code.name?`, `Code.call?`: what stands at an index.
* `Code.ClosesAt`: the closes that scans find.
* `Flow.Forward`: all places that a statement names lie behind it.
* `Statement.loopForm`, `Statement.forForm`, `Statement.defineForm`: the forms of statements.
* `Statement.check`: looks at the form of a statement, and does nothing else.
-/

namespace TokenScript

open TokenScript.Action

variable {σ α β : Type}

section

variable {x : Action σ α} {f : α → Action σ β} {world final : World σ}

/-- What comes before a result was itself successful. -/
theorem Action.exists_ok_of_bind {v : β} (h : (x >>= f).run world = .ok v final) :
    ∃ u middle, x.run world = .ok u middle ∧ (f u).run middle = .ok v final := by
  change EStateM.bind x f world = .ok v final at h
  simp only [EStateM.bind] at h
  cases hfirst : x world with
  | error abort middle =>
    rw [hfirst] at h
    cases h
  | ok u middle =>
    rw [hfirst] at h
    exact ⟨u, middle, hfirst, h⟩

theorem run_bind_of_ok {u : α} (h : x.run world = .ok u final) :
    (x >>= f).run world = (f u).run final := by
  change EStateM.bind x f world = _
  simp only [EStateM.run] at h
  rw [EStateM.bind, h]
  rfl

end

/-! ## What stands at an index -/

namespace Code

/-- The reserved word at an index. -/
def wordAt? (code : Code) (index : Nat) : Option Keyword := code.tokens[index]?.bind Token.keyword?

/-- The name that stands at an index of the code, with its place. -/
def name? (code : Code) (index : Nat) : Option (String × Span) :=
  (code.tokens[index]?).bind fun t => t.identifier?.map fun name => (name, t.span)

/-- The call that stands at an index of the code: the name that is called, and its place. -/
def call? (code : Code) (start : Nat) : Option (String × Span) :=
  match code.tokens[start]? with
  | none => none
  | some t =>
    match t.kind with
    | .identifier name =>
      if (code.tokens[start + 1]?).any fun t => t.kind = .assignment then none
      else some (name, t.span)
    | .keyword .exec =>
      (code.tokens[start + 1]?).bind fun t => t.identifier?.map fun name => (name, t.span)
    | _ => none

variable {code : Code} {start index : Nat} {word : Keyword}

theorem exists_token (h : code.wordAt? index = some word) :
    ∃ t, code.tokens[index]? = some t ∧ t.keyword? = some word :=
  Option.bind_eq_some_iff.1 h

theorem lt_size_of_wordAt? (h : code.wordAt? index = some word) : index < code.size := by
  obtain ⟨t, ht, -⟩ := exists_token h
  exact (Array.getElem?_eq_some_iff.1 ht).1

theorem wordAt?_of_isKeyword {t : Token} (ht : code.tokens[index]? = some t)
    (h : t.isKeyword word = true) : code.wordAt? index = some word := by
  rw [wordAt?, ht, Option.bind_some, Token.keyword?_of_isKeyword h]

/-- The word at an index says how a scan from there goes. -/
theorem policyAt?_of_wordAt? (h : code.wordAt? start = some word) :
    code.policyAt? start = BlockPolicy.ofOpener? word := by
  change (code.wordAt? start).bind _ = _
  rw [h, Option.bind_some]

end Code

/-! ## Scans -/

/-- A scan goes forward, stays inside the code, and ends at a keyword. -/
theorem BlockPolicy.scan_bounds {policy : BlockPolicy} {tokens : Array Token} {index depth : Nat}
    {found : BlockPolicy.Close} (h : policy.scan tokens index depth = some found) :
    index ≤ found.index ∧ found.index < tokens.size ∧
      tokens[found.index]?.bind Token.keyword? = some found.keyword := by
  fun_induction scan policy tokens index depth with
  | case1 index depth hlt hword ih =>
    obtain ⟨hle, hrest⟩ := ih h
    exact ⟨by omega, hrest⟩
  | case2 index depth hlt word hword hopener ih =>
    obtain ⟨hle, hrest⟩ := ih h
    exact ⟨by omega, hrest⟩
  | case3 index depth hlt word hword hopener hstop =>
    obtain rfl := Option.some.inj h
    exact ⟨Nat.le_refl index, hlt, by simp [hlt, hword]⟩
  | case4 index depth hlt word hword hopener hstop hclose ih =>
    obtain ⟨hle, hrest⟩ := ih h
    exact ⟨by omega, hrest⟩
  | case5 index depth hlt word hword hopener hstop hclose ih =>
    obtain ⟨hle, hrest⟩ := ih h
    exact ⟨by omega, hrest⟩
  | case6 => cases h

theorem BlockPolicy.scan_of_close {policy : BlockPolicy} {tokens : Array Token} {start : Nat}
    {found : BlockPolicy.Close} (h : policy.close tokens start = .ok found) :
    policy.scan tokens (start + 1) 0 = some found := by
  rw [close] at h
  cases hscan : policy.scan tokens (start + 1) 0 with
  | none => rw [hscan] at h; cases h
  | some other =>
    rw [hscan] at h
    rw [Except.ok.inj h]

/-- The error of a block without an end is of its own family. -/
theorem BlockPolicy.kind_of_close {policy : BlockPolicy} {tokens : Array Token} {start : Nat}
    {e : Error} (h : policy.close tokens start = .error e) : e.kind = .block := by
  rw [close] at h
  cases hscan : policy.scan tokens (start + 1) 0 with
  | some found => rw [hscan] at h; cases h
  | none =>
    rw [hscan] at h
    obtain rfl := Except.error.inj h
    unfold unterminated
    split <;> rfl

/-- The index is the close that a scan finds. -/
def Code.ClosesAt (code : Code) (start : Nat) (policy : BlockPolicy) (index : Nat) : Prop :=
  ∃ found, policy.close code.tokens start = .ok found ∧ found.index = index

theorem Code.ClosesAt.bounds {code : Code} {start index : Nat} {policy : BlockPolicy}
    (h : code.ClosesAt start policy index) : start < index ∧ index < code.size := by
  obtain ⟨found, hclose, rfl⟩ := h
  obtain ⟨hle, hlt, -⟩ := BlockPolicy.scan_bounds (BlockPolicy.scan_of_close hclose)
  exact ⟨hle, hlt⟩

/-- A name is no close. -/
theorem Code.ClosesAt.ne_of_identifier {code : Code} {start index : Nat} {policy : BlockPolicy}
    (h : code.ClosesAt start policy index) {place : Nat} {t : Token} {name : String}
    (ht : code.tokens[place]? = some t) (hname : t.identifier? = some name) : index ≠ place := by
  rintro rfl
  obtain ⟨found, hclose, rfl⟩ := h
  obtain ⟨-, -, hword⟩ := BlockPolicy.scan_bounds (BlockPolicy.scan_of_close hclose)
  rw [ht, Option.bind_some] at hword
  unfold Token.identifier? at hname
  unfold Token.keyword? at hword
  split at hname
  · next hkind => rw [hkind] at hword; cases hword
  · cases hname

/-! ## Places behind a statement -/

/-- The block lies behind an index of the code, and inside the code. -/
structure Extent.Behind (code : Code) (start : Nat) (extent : Extent) : Prop where
  lt_start : start < extent.start
  start_le : extent.start ≤ code.size
  stop_lt : extent.stop < code.size

/-- The blocks of the loop lie behind an index of the code. -/
structure Loop.Behind (code : Code) (start : Nat) (loop : Loop) : Prop where
  body : loop.body.Behind code start
  otherwise : ∀ extent, loop.otherwise = some extent → extent.Behind code start

/-- The statement at an index goes on behind it.  Only `while` tests a condition again. -/
def Flow.Forward (code : Code) (start : Nat) : Flow → Prop
  | .advance next => start < next ∧ next ≤ code.size
  | .enter block next => block.Behind code start ∧ start < next ∧ next ≤ code.size
  | .retest condition loop next =>
    (code.tokens[start]?.any fun t => t.isKeyword .whileLoop) = true ∧ condition ≤ code.size ∧
      loop.Behind code start ∧ start < next ∧ next ≤ code.size
  | .count _ _ _ loop next => loop.Behind code start ∧ start < next ∧ next ≤ code.size
  | .call _ next => start < next ∧ next ≤ code.size
  | .exit => True

/-- The flow starts no call. -/
def Flow.Plain (flow : Flow) : Prop := ∀ body next, flow ≠ .call body next

theorem Flow.plain_advance (next : Nat) : (Flow.advance next).Plain := nofun

theorem Flow.plain_exit : Flow.exit.Plain := nofun

theorem Extent.Behind.of_le {code : Code} {start earlier : Nat} {extent : Extent}
    (h : extent.Behind code start) (hle : earlier ≤ start) : extent.Behind code earlier :=
  ⟨Nat.lt_of_le_of_lt hle h.lt_start, h.start_le, h.stop_lt⟩

theorem Expression.endFrom_le (tokens : Array Token) (start : Nat) :
    endFrom tokens start ≤ tokens.size := by
  fun_induction endFrom tokens start with
  | case1 start hlt hbearing ih => exact ih
  | case2 start hlt hbearing => exact Nat.le_of_lt hlt
  | case3 => exact Nat.le_refl _

/-- An expression ends behind its start. -/
theorem Expression.le_endFrom {tokens : Array Token} {start : Nat} (h : start ≤ tokens.size) :
    start ≤ endFrom tokens start := by
  fun_induction endFrom tokens start with
  | case1 start hlt _ ih => exact Nat.le_of_succ_le (ih hlt)
  | case2 => exact Nat.le_refl _
  | case3 => exact h

/-- The block from the end of an expression to a close behind it. -/
theorem Extent.behind_endFrom {code : Code} {start place close : Nat} (hlt : start < place)
    (hplace : place ≤ code.size) (hclose : close < code.size) :
    Extent.Behind code start ⟨Expression.endFrom code.tokens place, close⟩ where
  lt_start := Nat.lt_of_lt_of_le hlt (Expression.le_endFrom hplace)
  start_le := Expression.endFrom_le _ _
  stop_lt := hclose

/-- Where a statement without blocks goes on. -/
inductive Code.Follows (code : Code) (start : Nat) : Nat → Prop
  /-- Behind its first token. -/
  | token : Follows code start (start + 1)
  /-- Behind its name. -/
  | name {t : Token} {name : String} :
    code.tokens[start + 1]? = some t → t.identifier? = some name → Follows code start (start + 2)
  /-- Behind the expression of `print`. -/
  | printed : Follows code start (Expression.endFrom code.tokens (start + 1))
  /-- Behind the expression of an assignment. -/
  | assigned {t : Token} :
    code.tokens[start + 1]? = some t → t.kind = .assignment →
      Follows code start (Expression.endFrom code.tokens (start + 2))

theorem Code.Follows.forward {code : Code} {start next : Nat} (h : code.Follows start next)
    (hstart : start < code.size) : start < next ∧ next ≤ code.size := by
  cases h with
  | token => exact ⟨Nat.lt_succ_self start, hstart⟩
  | name ht _ => exact ⟨by omega, (Array.getElem?_eq_some_iff.1 ht).1⟩
  | printed => exact ⟨Expression.le_endFrom hstart, Expression.endFrom_le _ _⟩
  | assigned ht _ =>
    have hsign : start + 2 ≤ code.size := (Array.getElem?_eq_some_iff.1 ht).1
    have hle : start + 2 ≤ Expression.endFrom code.tokens (start + 2) :=
      Expression.le_endFrom hsign
    exact ⟨by omega, Expression.endFrom_le _ _⟩

/-! ## Forms -/

/-- The loop with this form, whose body starts at `body`. -/
def Loop.ofForm (line body : Nat) (form : Nat × Option Extent × Nat) : Loop :=
  ⟨line, ⟨body, form.1⟩, form.2.1⟩

/-- The head of a `for` loop is well-formed: a name, and two bounds that are not empty. -/
structure Code.ForHead (code : Code) (start : Nat) (name : String) : Prop where
  name : ∃ t, code.tokens[start + 1]? = some t ∧ t.identifier? = some name
  inWord : code.wordAt? (start + 2) = some .inBound
  toWord : code.wordAt? (Expression.endFrom code.tokens (start + 3)) = some .toBound
  first : Expression.endFrom code.tokens (start + 3) ≠ start + 3
  last : Expression.endFrom code.tokens (Expression.endFrom code.tokens (start + 3) + 1) ≠
    Expression.endFrom code.tokens (start + 3) + 1

/-- The last bound of a `for` loop starts behind the loop's word. -/
theorem Code.ForHead.lt_last {code : Code} {start : Nat} {name : String}
    (h : code.ForHead start name) :
    start < Expression.endFrom code.tokens (start + 3) + 1 := by
  have hin : start + 2 < code.size := Code.lt_size_of_wordAt? h.inWord
  have hle : start + 3 ≤ Expression.endFrom code.tokens (start + 3) := Expression.le_endFrom hin
  omega

theorem Code.ForHead.last_le {code : Code} {start : Nat} {name : String}
    (h : code.ForHead start name) :
    Expression.endFrom code.tokens (start + 3) + 1 ≤ code.size :=
  Code.lt_size_of_wordAt? h.toWord

/-- The index of the first statement in the body of the `for` loop at `start`. -/
def Code.forBody (code : Code) (start : Nat) : Nat :=
  Expression.endFrom code.tokens (Expression.endFrom code.tokens (start + 3) + 1)

namespace Statement

/-- The form of a loop behind its head: the end of its body, its `else` clause, and its `end`. -/
def loopForm (code : Code) (start : Nat) : Action σ (Nat × Option Extent × Nat) := do
  let close ← closeOf code start .loop
  let ending ← loopElse code close
  pure (close, ending)

/-- The form of `for`: its name, the end of its body, and its `else` clause with its `end`. -/
def forForm (code : Code) (start : Nat) : Action σ (String × Nat × Option Extent × Nat) := do
  let (name, _) ← expectName code (start + 1) .forLoop
  expectKeyword code (start + 2) .inBound
  let toWord := Expression.endFrom code.tokens (start + 3)
  expectKeyword code toWord .toBound
  expectBound code (start + 3) toWord .inBound
  expectBound code (toWord + 1) (Expression.endFrom code.tokens (toWord + 1)) .toBound
  let close ← closeOf code start .loop
  let (otherwise, stop) ← loopElse code close
  pure (name, close, otherwise, stop)

/-- The form of `func`: its name, and where its `leave` stands. -/
def defineForm (code : Code) (start : Nat) : Action σ (String × Nat) :=
  match code.tokens[start + 1]? with
  | none => do
    let opener ← tokenAt code start
    fail (.structural .functionNameExpected) opener.span
  | some t =>
    match t.identifier? with
    | none => fail (.structural .functionNameExpected) t.span
    | some name => do
      let close ← closeOf code start .function
      pure (name, close)

/-- Looks at the form of the statement at an index, and does nothing else. -/
def check (code : Code) (start : Nat) : Action σ Unit :=
  match code.wordAt? start with
  | some .input => expectName code (start + 1) .input >>= fun _ => pure ()
  | some .exec => expectName code (start + 1) .exec >>= fun _ => pure ()
  | some .func => defineForm code start >>= fun _ => pure ()
  | some .ifClause => clauses code start #[] >>= fun _ => pure ()
  | some .whileLoop => loopForm code start >>= fun _ => pure ()
  | some .forLoop => forForm code start >>= fun _ => pure ()
  | _ => pure ()

end Statement

theorem expectName_of_some {code : Code} {index : Nat} {named : String × Span}
    (h : code.name? index = some named) (after : Keyword) :
    Statement.expectName (σ := σ) code index after = pure named := by
  obtain ⟨t, ht, hmap⟩ := Option.bind_eq_some_iff.1 h
  obtain ⟨name, hname, rfl⟩ := Option.map_eq_some_iff.1 hmap
  simp only [Statement.expectName, ht, hname]

/-- A `while` loop does nothing but to look at its form. -/
theorem whileLoop_eq [Console σ] (code : Code) (start line : Nat) :
    Statement.whileLoop (σ := σ) code start line =
      (do
        let form ← Statement.loopForm code start
        pure (.retest (start + 1)
          (.ofForm line (Expression.endFrom code.tokens (start + 1)) form) (form.2.2 + 1))) := by
  symm
  simp only [Statement.loopForm, bind_assoc, pure_bind]
  rfl

/-- The bounds of `for` are evaluated after its form was checked. -/
theorem forLoop_eq [Console σ] (code : Code) (start line : Nat) :
    Statement.forLoop (σ := σ) code start line =
      (do
        let form ← Statement.forForm code start
        let toWord := Expression.endFrom code.tokens (start + 3)
        let low ← Statement.bound code (start + 3) toWord
        match low with
        | none => pure (.advance (form.2.2.2 + 1))
        | some low =>
          let high ← Statement.bound code (toWord + 1) (toWord + 1)
          match high with
          | none => pure (.advance (form.2.2.2 + 1))
          | some high =>
            let body : Extent := ⟨Expression.endFrom code.tokens (toWord + 1), form.2.1⟩
            pure (.count form.1 low high ⟨line, body, form.2.2.1⟩ (form.2.2.2 + 1))) := by
  symm
  simp only [Statement.forForm, bind_assoc, pure_bind]
  rfl

/-- Stores the body of a function, and notes it.  What is remembered is forgotten. -/
def Action.defineBody (name : String) (body : Array Token) : Action σ Unit := do
  note (.functionDefined name body)
  store name body
  forgetCloses

/-- A body is stored after the form of its definition was checked. -/
theorem define_eq (code : Code) (start : Nat) :
    Statement.define (σ := σ) code start =
      (do
        let form ← Statement.defineForm code start
        if start + 2 ≤ form.2 ∧ form.2 < code.size then
          defineBody form.1 (code.tokens.extract (start + 2) form.2)
          pure (.advance (form.2 + 1))
        else throw .fault) := by
  unfold Statement.define Statement.defineForm defineBody
  dsimp only
  cases code.tokens[start + 1]? with
  | none =>
    rw [bind_assoc]
    rfl
  | some t =>
    cases hname : t.identifier? with
    | none =>
      simp only [hname]
      rfl
    | some name => simp only [hname, bind_assoc, pure_bind]

end TokenScript
