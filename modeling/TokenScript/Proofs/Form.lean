import TokenScript.Proofs.Block.Clauses

/-!
# The form of statements

A statement that is malformed is refused before it does anything.  To say so, three things are kept
apart.  `Code.Malformed` tells what is wrong with a statement in terms of its tokens alone: a name,
a word or a bound is not there, a block has no end, or a clause follows the `else` clause.
`Statement.check` looks at the form and does nothing else; it has no console, so it cannot evaluate
anything.  `Statement.execute` starts with that check, and what comes behind the check never
complains about the form.

So executing a malformed statement is checking it, and the check comes to the error that the tokens
tell.  Closes that are remembered could only spoil this if they were wrong, and in a run they never
are.

* `Code.Malformed`: what is wrong with the form of a statement.
* `Staged.run_eq_error`: what the check of a statement refuses is refused.
* `Staged.kind_of_error`: and nothing else is refused because of its form.
* `looks_check_of_malformed`, `looks_check_of_formed`: what the check comes to.
-/

namespace TokenScript

open TokenScript.Action

variable {σ α β : Type}

/-! ## Malformed statements -/

namespace Code

/-- The error that something is missing at an index.  It tells what stands there instead, and blames
that token, or the last token if the code ends before. -/
def refusal (code : Code) (index : Nat) (cause : Option String → StructuralCause) : Error where
  cause := .structural (cause (code.tokens[index]?.map Token.shown))
  span := (((code.tokens[index]?).or code.tokens.back?).map Token.span).getD .nowhere

/-- Where the first bound of the `for` loop at `start` ends, and its `to` should stand. -/
def forTo (code : Code) (start : Nat) : Nat := Expression.endFrom code.tokens (start + 3)

/-- What the tokens tell to be wrong with the form of the statement at `start`.  The parts of a head
are looked at from left to right, and the clauses after the head. -/
inductive Malformed (code : Code) (start : Nat) : Error → Prop
  | name {word : Keyword} :
    code.wordAt? start = some word → word ∈ [Keyword.input, .exec, .forLoop] →
      code.name? (start + 1) = none →
      Malformed code start (code.refusal (start + 1) (.nameExpected word))
  | inWord {named : String × Span} :
    code.wordAt? start = some .forLoop → code.name? (start + 1) = some named →
      code.wordAt? (start + 2) ≠ some .inBound →
      Malformed code start (code.refusal (start + 2) (.keywordExpected .inBound))
  | toWord {named : String × Span} :
    code.wordAt? start = some .forLoop → code.name? (start + 1) = some named →
      code.wordAt? (start + 2) = some .inBound → code.wordAt? (code.forTo start) ≠ some .toBound →
      Malformed code start (code.refusal (code.forTo start) (.keywordExpected .toBound))
  | firstBound {named : String × Span} :
    code.wordAt? start = some .forLoop → code.name? (start + 1) = some named →
      code.wordAt? (start + 2) = some .inBound → code.wordAt? (code.forTo start) = some .toBound →
      code.forTo start = start + 3 →
      Malformed code start (code.refusal (start + 3) (.boundExpected .inBound))
  | lastBound {named : String × Span} :
    code.wordAt? start = some .forLoop → code.name? (start + 1) = some named →
      code.wordAt? (start + 2) = some .inBound → code.wordAt? (code.forTo start) = some .toBound →
      code.forTo start ≠ start + 3 → code.forBody start = code.forTo start + 1 →
      Malformed code start (code.refusal (code.forTo start + 1) (.boundExpected .toBound))
  /-- The token that is no name is blamed, or `func` if there is none. -/
  | functionName {t : Token} :
    code.wordAt? start = some .func → code.name? (start + 1) = none →
      (code.tokens[start + 1]?).or code.tokens[start]? = some t →
      Malformed code start ⟨.structural .functionNameExpected, t.span⟩
  | functionEnd {named : String × Span} {t : Token} :
    code.wordAt? start = some .func → code.name? (start + 1) = some named →
      (∀ close, ¬BlockPolicy.function.Matches code.tokens start close) →
      code.tokens[start]? = some t →
      Malformed code start ⟨.unterminatedBlock t.lexeme .leave, t.span⟩
  | ifClauses {e : Error} :
    code.wordAt? start = some .ifClause → code.ChainsTo start clauseWords (.error e) →
      Malformed code start e
  | whileClauses {e : Error} :
    code.wordAt? start = some .whileLoop → code.ChainsTo start [.elseClause] (.error e) →
      Malformed code start e
  | forClauses {name : String} {e : Error} :
    code.wordAt? start = some .forLoop → code.ForHead start name →
      code.ChainsTo start [.elseClause] (.error e) → Malformed code start e

variable {code : Code} {start : Nat} {words : List Keyword} {e : Error}

/-- Clauses come to one error only. -/
theorem ChainsTo.eq_error {result : Except Error (List Nat × Nat)}
    (h : code.ChainsTo start words result) (herror : code.ChainsTo start words (.error e)) :
    result = .error e := by
  have hlast : ∀ {last other : Nat}, (last = start ∨ ∃ word ∈ words, code.Meets start last word) →
      (∀ index, ∀ word ∈ words, code.Meets start index word → index ≤ other) →
      (other = start ∨ ∃ word ∈ words, code.Meets start other word) → last ≤ other := by
    rintro last other (rfl | ⟨word, hword, hmeets⟩) hle hother
    · rcases hother with rfl | ⟨word, -, hother⟩
      · exact Nat.le_refl _
      · exact Nat.le_of_lt hother.surface.lt
    · exact hle last word hword hmeets
  rcases result with e' | ⟨places, stop⟩
  · rcases h with ⟨first, next, t, hafter, ht, rfl⟩ | ⟨hnone, -, last, t, hmem, hle, ht, rfl⟩ <;>
      rcases herror with ⟨first', next', u, hafter', hu, rfl⟩ |
        ⟨hnone', -, last', u, hmem', hle', hu, rfl⟩
    · -- both are about the first clause word behind the first `else`
      obtain rfl : first = first' :=
        Nat.le_antisymm (hafter.first _ hafter'.meets) (hafter'.first _ hafter.meets)
      obtain ⟨word, hword, hnext⟩ := hafter.clause
      obtain ⟨word', hword', hnext'⟩ := hafter'.clause
      obtain rfl : next = next' := Nat.le_antisymm
        (hafter.nearest next' word' hword' hnext' hafter'.lt)
        (hafter'.nearest next word hword hnext hafter.lt)
      obtain rfl : t = u := Option.some.inj (ht.symm.trans hu)
      rfl
    · exact absurd hafter (hnone' _ _)
    · exact absurd hafter' (hnone _ _)
    · obtain rfl : last = last' := Nat.le_antisymm (hlast hmem hle' hmem') (hlast hmem' hle hmem)
      obtain rfl : t = u := Option.some.inj (ht.symm.trans hu)
      rfl
  · obtain ⟨hstop, -, -, -, hafter⟩ := h
    rcases herror with ⟨first, next, t, hclause, -⟩ | ⟨-, hopen, -⟩
    · exact absurd hclause (hafter first next)
    · exact absurd hstop (hopen stop)

/-- A statement that is malformed starts with a word of the language. -/
theorem Malformed.exists_word (h : code.Malformed start e) :
    ∃ word, code.wordAt? start = some word := by
  cases h <;> exact ⟨_, ‹_›⟩

theorem ChainsTo.kind_of_error (h : code.ChainsTo start words (.error e)) :
    e.kind = .structural ∨ e.kind = .block := by
  rcases h with ⟨-, -, t, -, -, rfl⟩ | ⟨-, -, -, t, -, -, -, rfl⟩
  · exact Or.inl rfl
  · exact Or.inr rfl

theorem Malformed.kind (h : code.Malformed start e) : e.kind = .structural ∨ e.kind = .block := by
  cases h with
  | name | inWord | toWord | firstBound | lastBound | functionName => exact Or.inl rfl
  | functionEnd => exact Or.inr rfl
  | ifClauses _ hchain | whileClauses _ hchain | forClauses _ _ hchain => exact hchain.kind_of_error

end Code

/-! ## Checks -/

section

variable {scans : Prop} {code : Code} {start : Nat} {check : Routine Unit} {x : Routine Flow}

/-- What the check refuses is refused. -/
theorem Staged.run_eq_error (h : Staged scans code start check x) (site : Site)
    {world final : World site.σ} {abort : Abort}
    (hcheck : (check site).run world = .error abort final) :
    (x site).run world = .error abort final := by
  cases h with
  | call => cases hcheck
  | @plain _ form =>
    change EStateM.bind (form site) _ world = _ at hcheck
    change EStateM.bind (form site) _ world = _
    simp only [EStateM.bind] at hcheck ⊢
    cases hform : form site world with
    | error other middle =>
      rw [hform] at hcheck
      obtain ⟨rfl, rfl⟩ := EStateM.Result.error.inj hcheck
      rfl
    | ok u middle =>
      rw [hform] at hcheck
      cases hcheck

/-- Nothing is abandoned because of a form. -/
def Manner.accepting : Manner σ where
  Starts _ := True
  Goes _ _ := True
  Stops _ abort _ := ∀ e, abort = .error e → e.kind ≠ .structural ∧ e.kind ≠ .block
  refl _ := trivial
  trans _ _ := trivial
  stops_trans _ := id

theorem accepting_acting (site : Site) : Manner.accepting.Acting scans code site where
  fault _ _ _ := nofun
  note _ := .of_modify trivial fun _ _ => ⟨trivial, trivial⟩
  assign _ _ := .of_modify trivial fun _ _ => ⟨trivial, trivial⟩
  define _ _ _ := fun _ _ => ⟨trivial, trivial, trivial⟩
  readLine prompt world _ := by
    rw [run_readLine]
    split
    · exact ⟨trivial, trivial, trivial⟩
    · rintro e ⟨⟩
      exact ⟨nofun, nofun⟩
  writeLine line world _ := by
    rw [run_writeLine]
    split
    · exact ⟨trivial, trivial, trivial⟩
    · rintro e ⟨⟩
      exact ⟨nofun, nofun⟩

theorem accepting_invoke (name : String) (span : Span) :
    Manner.accepting.Keeps (Statement.invoke (σ := σ) name span) fun _ => True := by
  intro world _
  rw [Statement.run_invoke]
  split
  · rintro e ⟨⟩
    exact ⟨nofun, nofun⟩
  · split
    · rintro e ⟨⟩
      exact ⟨nofun, nofun⟩
    · exact ⟨trivial, trivial, trivial⟩

/-- What the check lets pass is not refused later. -/
theorem Staged.kind_of_error (h : Staged False code start check x) (site : Site)
    {world final last : World site.σ} (hcheck : (check site).run world = .ok () final) {e : Error}
    (hrun : (x site).run world = .error (.error e) last) :
    e.kind ≠ .structural ∧ e.kind ≠ .block := by
  cases h with
  | plain hform hrest =>
    obtain ⟨u, middle, hfirst, -⟩ := exists_ok_of_bind hcheck
    obtain ⟨-, -, hu⟩ := (hform.silent site).of_run trivial hfirst
    have haccepts := (hrest u hu).keeps (accepting_acting site) middle trivial
    rw [run_bind_of_ok hfirst] at hrun
    rw [hrun] at haccepts
    exact haccepts e rfl
  | @call named unknown next _ _ hunknown =>
    have haccepts : Manner.accepting.Keeps (Statement.callOr named next (unknown site))
        fun _ => True := by
      refine .bind_get fun seen => ?_
      split
      · exact .bind (hunknown.keeps (accepting_acting site)) fun _ _ => .of_pure trivial
      · exact .bind (accepting_invoke _ _) fun _ _ => .of_pure trivial
    have hkept := haccepts world trivial
    rw [hrun] at hkept
    exact hkept e rfl

end

/-! ## What checks come to -/

section

variable {code : Code} {start index : Nat} {word : Keyword} {e : Error}

theorem looks_refuse (index : Nat) (cause : Option String → StructuralCause) :
    Looks (σ := σ) (α := α) code (Statement.refuse code index cause)
      (.error (code.refusal index cause)) := by
  unfold Statement.refuse Statement.lastSpan Code.refusal
  cases code.tokens[index]? with
  | some t => exact Looks.of_fail _ _
  | none => cases code.tokens.back? <;> exact Looks.of_fail _ _

theorem looks_expectName_of_none (h : code.name? index = none) (after : Keyword) :
    Looks (σ := σ) code (Statement.expectName code index after)
      (.error (code.refusal index (.nameExpected after))) := by
  unfold Statement.expectName
  unfold Code.name? at h
  cases ht : code.tokens[index]? with
  | none => exact looks_refuse index _
  | some t =>
    rw [ht, Option.bind_some, Option.map_eq_none_iff] at h
    simp only [h]
    exact looks_refuse index _

theorem looks_expectName_of_some {named : String × Span} (h : code.name? index = some named)
    (after : Keyword) :
    Looks (σ := σ) code (Statement.expectName code index after) (.ok named) := by
  rw [expectName_of_some h]
  exact Looks.of_pure named

theorem looks_expectKeyword_of_ne (h : code.wordAt? index ≠ some word) :
    Looks (σ := σ) code (Statement.expectKeyword code index word)
      (.error (code.refusal index (.keywordExpected word))) := by
  unfold Statement.expectKeyword
  unfold Code.wordAt? at h
  cases ht : code.tokens[index]? with
  | none => exact looks_refuse index _
  | some t =>
    rw [ht, Option.bind_some] at h
    simp only
    rw [if_neg fun hword => h (Token.keyword?_of_isKeyword hword)]
    exact looks_refuse index _

theorem looks_expectBound_self (after : Keyword) :
    Looks (σ := σ) code (Statement.expectBound code index index after)
      (.error (code.refusal index (.boundExpected after))) := by
  rw [Statement.expectBound, if_pos rfl]
  exact looks_refuse index _

/-- Looking at a form is the check of it. -/
theorem Looks.check {form : Action σ α} {answer : Except Error α} (h : Looks code form answer) :
    Looks code (form >>= fun _ => pure ()) (answer.map fun _ => ()) :=
  h.map fun _ => ()

theorem looks_functionClose (hword : code.wordAt? start = some .func) :
    Looks (σ := σ) code (closeOf code start .function)
      ((BlockPolicy.function.close code.tokens start).map BlockPolicy.Close.index) := by
  refine looks_closeOf ?_
  rw [Code.policyAt?, ← Code.wordAt?, hword]
  rfl

theorem looks_defineForm_of_some {named : String × Span} (hword : code.wordAt? start = some .func)
    (h : code.name? (start + 1) = some named) :
    Looks (σ := σ) code (Statement.defineForm code start)
      ((BlockPolicy.function.close code.tokens start).map fun close => (named.1, close.index)) := by
  obtain ⟨t, ht, hnamed⟩ := Option.bind_eq_some_iff.1 h
  obtain ⟨name, hname, rfl⟩ := Option.map_eq_some_iff.1 hnamed
  unfold Statement.defineForm
  simp only [ht, hname]
  have hclose := (looks_functionClose (σ := σ) hword).map fun close => (name, close)
  cases hfound : BlockPolicy.function.close code.tokens start <;>
    rw [hfound] at hclose <;> exact hclose

theorem looks_defineForm_of_none {t : Token} (h : code.name? (start + 1) = none)
    (ht : (code.tokens[start + 1]?).or code.tokens[start]? = some t) :
    Looks (σ := σ) code (Statement.defineForm code start)
      (.error ⟨.structural .functionNameExpected, t.span⟩) := by
  unfold Statement.defineForm
  unfold Code.name? at h
  cases hnext : code.tokens[start + 1]? with
  | none =>
    rw [hnext, Option.none_or] at ht
    exact (looks_tokenAt ht).bind (Looks.of_fail _ _)
  | some u =>
    rw [hnext, Option.some_or] at ht
    obtain rfl := Option.some.inj ht
    rw [hnext, Option.bind_some, Option.map_eq_none_iff] at h
    simp only [h]
    exact Looks.of_fail _ _

/-- A `for` loop is refused with what is wrong with its form. -/
theorem looks_check_of_forForm (hword : code.wordAt? start = some .forLoop)
    (h : Looks (σ := σ) code (Statement.forForm code start) (.error e)) :
    Looks (σ := σ) code (Statement.check code start) (.error e) := by
  rw [Statement.check, hword]
  exact h.check

/-- The check of a malformed statement comes to what is wrong with it. -/
theorem looks_check_of_malformed (h : code.Malformed start e) :
    Looks (σ := σ) code (Statement.check code start) (.error e) := by
  cases h with
  | @name word hword hnamed hname =>
    simp only [List.mem_cons, List.not_mem_nil, or_false] at hnamed
    rcases hnamed with rfl | rfl | rfl
    · rw [Statement.check, hword]
      exact (looks_expectName_of_none hname _).check
    · rw [Statement.check, hword]
      exact (looks_expectName_of_none hname _).check
    · exact looks_check_of_forForm hword (looks_expectName_of_none hname _).bind_error
  | inWord hword hname hin =>
    refine looks_check_of_forForm hword ((looks_expectName_of_some hname _).bind ?_)
    exact (looks_expectKeyword_of_ne hin).bind_error
  | toWord hword hname hin hto =>
    refine looks_check_of_forForm hword ((looks_expectName_of_some hname _).bind
      ((looks_expectKeyword hin).bind ?_))
    exact (looks_expectKeyword_of_ne hto).bind_error
  | firstBound hword hname hin hto hfirst =>
    refine looks_check_of_forForm hword ((looks_expectName_of_some hname _).bind
      ((looks_expectKeyword hin).bind ((looks_expectKeyword hto).bind ?_)))
    rw [show Expression.endFrom code.tokens (start + 3) = start + 3 from hfirst]
    exact (looks_expectBound_self _).bind_error
  | lastBound hword hname hin hto hfirst hlast =>
    refine looks_check_of_forForm hword ((looks_expectName_of_some hname _).bind
      ((looks_expectKeyword hin).bind
        ((looks_expectKeyword hto).bind ((looks_expectBound hfirst _).bind ?_))))
    rw [show Expression.endFrom code.tokens (Expression.endFrom code.tokens (start + 3) + 1) = _
      from hlast]
    exact (looks_expectBound_self _).bind_error
  | functionName hword hname ht =>
    rw [Statement.check, hword]
    exact (looks_defineForm_of_none hname ht).check
  | functionEnd hword hname hopen ht =>
    have hform := looks_defineForm_of_some (σ := σ) hword hname
    have hregular : BlockPolicy.function.Regular := BlockPolicy.regular_of_mem_all (by decide)
    rw [BlockPolicy.close_eq_error_of_not_matches hregular hopen, BlockPolicy.unterminated, ht]
      at hform
    rw [Statement.check, hword]
    exact hform.check
  | ifClauses hword hchain =>
    obtain ⟨result, hresult, hlooks⟩ := exists_chain_clauses (σ := σ) hword (Or.inl rfl) #[]
    obtain rfl := hresult.eq_error hchain
    rw [Statement.check, hword]
    exact hlooks.check
  | whileClauses hword hchain =>
    obtain ⟨result, hresult, hlooks⟩ := exists_chain_loop (σ := σ) hword (Or.inl rfl)
    obtain rfl := hresult.eq_error hchain
    rw [Statement.check, hword]
    exact hlooks.check
  | forClauses hword hhead hchain =>
    obtain ⟨result, hresult, hlooks⟩ := exists_chain_loop (σ := σ) hword (Or.inr rfl)
    obtain rfl := hresult.eq_error hchain
    exact looks_check_of_forForm hword (looks_forForm hhead hlooks)

/-- A statement that is not malformed has its name. -/
theorem exists_name_of_formed (hword : code.wordAt? start = some word)
    (hmem : word ∈ [Keyword.input, .exec, .forLoop]) (h : ∀ e, ¬code.Malformed start e) :
    ∃ named, code.name? (start + 1) = some named :=
  Option.ne_none_iff_exists'.1 fun hnone => h _ (.name hword hmem hnone)

/-- A `for` loop without anything wrong in its head. -/
theorem forHead_of_formed (hword : code.wordAt? start = some .forLoop)
    (h : ∀ e, ¬code.Malformed start e) : ∃ name, code.ForHead start name := by
  obtain ⟨named, hname⟩ := exists_name_of_formed hword (by decide) h
  have hin : code.wordAt? (start + 2) = some .inBound :=
    Classical.not_not.1 fun hne => h _ (.inWord hword hname hne)
  have hto : code.wordAt? (code.forTo start) = some .toBound :=
    Classical.not_not.1 fun hne => h _ (.toWord hword hname hin hne)
  have hfirst : code.forTo start ≠ start + 3 := fun heq => h _ (.firstBound hword hname hin hto heq)
  have hlast : code.forBody start ≠ code.forTo start + 1 := fun heq =>
    h _ (.lastBound hword hname hin hto hfirst heq)
  obtain ⟨t, ht, hnamed⟩ := Option.bind_eq_some_iff.1 hname
  obtain ⟨name, hident, -⟩ := Option.map_eq_some_iff.1 hnamed
  exact ⟨name, ⟨t, ht, hident⟩, hin, hto, hfirst, hlast⟩

/-- The check of any other statement lets it pass. -/
theorem looks_check_of_formed (h : ∀ e, ¬code.Malformed start e) :
    Looks (σ := σ) code (Statement.check code start) (.ok ()) := by
  unfold Statement.check
  split
  · next hword =>
    obtain ⟨named, hname⟩ := exists_name_of_formed hword (by decide) h
    exact (looks_expectName_of_some hname _).check
  · next hword =>
    obtain ⟨named, hname⟩ := exists_name_of_formed hword (by decide) h
    exact (looks_expectName_of_some hname _).check
  · next hword =>
    obtain ⟨t, ht, -⟩ := Code.exists_token hword
    obtain ⟨named, hname⟩ : ∃ named, code.name? (start + 1) = some named := by
      refine Option.ne_none_iff_exists'.1 fun hnone => ?_
      obtain ⟨u, hu⟩ : ∃ u, (code.tokens[start + 1]?).or code.tokens[start]? = some u := by
        cases hnext : code.tokens[start + 1]? with
        | none => exact ⟨t, ht⟩
        | some u => exact ⟨u, rfl⟩
      exact h _ (.functionName hword hnone hu)
    have hform := looks_defineForm_of_some (σ := σ) hword hname
    cases hclose : BlockPolicy.function.close code.tokens start with
    | ok close =>
      rw [hclose] at hform
      exact hform.check
    | error e =>
      refine absurd (.functionEnd hword hname (fun close hmatches => ?_) ht) (h _)
      have hregular : BlockPolicy.function.Regular := BlockPolicy.regular_of_mem_all (by decide)
      rw [(BlockPolicy.close_eq_ok_iff_matches hregular).2 hmatches] at hclose
      cases hclose
  · next hword =>
    obtain ⟨result, hchain, hlooks⟩ := exists_chain_clauses (σ := σ) hword (Or.inl rfl) #[]
    cases result with
    | error e => exact absurd (.ifClauses hword hchain) (h e)
    | ok chain => exact hlooks.check
  · next hword =>
    obtain ⟨result, hchain, hlooks⟩ := exists_chain_loop (σ := σ) hword (Or.inl rfl)
    cases result with
    | error e => exact absurd (.whileClauses hword hchain) (h e)
    | ok chain => exact hlooks.check
  · next hword =>
    obtain ⟨name, hhead⟩ := forHead_of_formed hword h
    obtain ⟨result, hchain, hlooks⟩ := exists_chain_loop (σ := σ) hword (Or.inr rfl)
    cases result with
    | error e => exact absurd (.forClauses hword hhead hchain) (h e)
    | ok chain => exact (looks_forForm hhead hlooks).check
  · exact Looks.of_pure ()

/-- There is one thing wrong with a statement at most. -/
theorem Code.Malformed.unique {other : Error} (h : code.Malformed start e)
    (hother : code.Malformed start other) : e = other := by
  -- the check comes to both, in any world that scans for every close
  have htrusts : World.Trusts (σ := Unit) ⟨.fresh 0, (), [], none, .silent⟩ code :=
    World.trusts_of_scans rfl code
  have hfirst := (looks_check_of_malformed h).answerOf_eq htrusts
  rw [(looks_check_of_malformed hother).answerOf_eq htrusts] at hfirst
  exact (Except.error.inj (Option.some.inj hfirst)).symm

section

variable [Console σ] {world : World σ}

/-- A malformed statement fails as its check does. -/
theorem Code.Malformed.exists_run_eq (h : code.Malformed start e) (htrusts : world.Trusts code) :
    ∃ final, world.Looked code final ∧
      (Statement.check code start).run world = .error (.error e) final ∧
      (Statement.execute code start).run world = .error (.error e) final := by
  obtain ⟨final, hlooked, hcheck⟩ := looks_check_of_malformed h world htrusts
  exact ⟨final, hlooked, hcheck, (staged_execute False.elim).run_eq_error ⟨code.address⟩ hcheck⟩

/-- Only a malformed statement fails because of a form or a block, and with what is wrong with
it. -/
theorem malformed_of_run_eq (htrusts : world.Trusts code) {final : World σ}
    (hrun : (Statement.execute code start).run world = .error (.error e) final)
    (hkind : e.kind = .structural ∨ e.kind = .block) : code.Malformed start e := by
  by_cases hformed : ∀ other, ¬code.Malformed start other
  · obtain ⟨middle, -, hcheck⟩ := looks_check_of_formed hformed world htrusts
    obtain ⟨hstructural, hblock⟩ :=
      (staged_execute False.elim).kind_of_error ⟨code.address⟩ hcheck hrun
    exact absurd hkind (not_or.2 ⟨hstructural, hblock⟩)
  · obtain ⟨other, hother⟩ := not_forall_not.1 hformed
    obtain ⟨middle, -, -, hsame⟩ := hother.exists_run_eq htrusts
    rw [hrun] at hsame
    obtain ⟨⟨⟩, -⟩ := EStateM.Result.error.inj hsame
    exact hother

end

/-- At every moment of a run that starts with a memory that is right, it is right about the code in
the frames. -/
theorem Remembers.trusts_of_reaches [Console σ] {machine later : Machine σ}
    (h : Remembers machine.frames machine.world) (hreaches : machine.Reaches later) {frame : Frame}
    (hframe : frame ∈ later.frames) (hcode : frame.code? = some code) :
    later.world.Trusts code := by
  have hstart : Alike machine.frames machine.world { machine.world with closes := none } :=
    ⟨rfl, rfl, rfl, rfl, rfl, h⟩
  obtain ⟨plain, -, halike⟩ := Machine.exists_reaches_alike hstart hreaches
  exact halike.memory.trusts (List.mem_filterMap.2 ⟨frame, hframe, hcode⟩)

end

/-! ## Malformed statements have no effect -/

/-- **A malformed statement is refused before it does anything.**  Take any statement of any code.

* What is wrong with it, if anything, is one error, and the tokens tell which.
* In every world that is right about the code, the statement fails with this error; with no other
  error about forms or blocks; and with none if the statement is not malformed.
* When it fails so, it has done what its check does and nothing else.  The variables, the functions,
  the count of calls and the console are as they were, and a run that came to the statement ends
  there.
* All worlds of all runs are right about the code that they run. -/
theorem malformed_statement_refused_first [Console σ] (code : Code) (start : Nat) :
    (∀ e other, code.Malformed start e → code.Malformed start other → e = other) ∧
    (∀ world : World σ, world.Trusts code → ∀ e, code.Malformed start e ↔
      (e.kind = .structural ∨ e.kind = .block) ∧
        ∃ final, (Statement.execute code start).run world = .error (.error e) final) ∧
    (∀ world : World σ, world.Trusts code → ∀ e, code.Malformed start e →
      ∃ final, world.Looked code final ∧
        (Statement.check code start).run world = .error (.error e) final ∧
        (Statement.execute code start).run world = .error (.error e) final ∧
        ∀ stop rest, start < stop →
          Machine.step ⟨.block code start stop :: rest, world⟩ = .halted (.failed e)
            (final.unwind rest)) ∧
    ∀ (context : Context) (console : σ) (journal : Journal) (tokens : Array Token) (extent : Extent)
      (later : Machine σ),
      (Machine.start (.program tokens) extent (context.world console journal)).Reaches later →
      ∀ frame ∈ later.frames, frame.code? = some code → later.world.Trusts code := by
  refine ⟨fun e other h hother => h.unique hother,
    fun world htrusts e => ⟨fun h => ⟨h.kind, ?_⟩, ?_⟩,
    fun world htrusts e h => ?_,
      fun context console journal tokens extent later hreaches frame hframe hcode =>
      (context.alike_start console journal tokens extent).memory.trusts_of_reaches hreaches
        hframe hcode⟩
  · obtain ⟨final, -, -, hrun⟩ := h.exists_run_eq htrusts
    exact ⟨final, hrun⟩
  · rintro ⟨hkind, final, hrun⟩
    exact malformed_of_run_eq htrusts hrun hkind
  · obtain ⟨final, hlooked, hcheck, hrun⟩ := h.exists_run_eq htrusts
    refine ⟨final, hlooked, hcheck, hrun, fun stop rest hlt => ?_⟩
    obtain ⟨word, hword⟩ := h.exists_word
    rw [Machine.step_block ⟨hlt, Code.lt_size_of_wordAt? hword⟩, hrun]
    rfl

/-- The tokens of `for i in n to 2 else elif end`. -/
def lateClause : Code := .program
  #[⟨.keyword .forLoop, "for", ⟨1, 0⟩⟩, ⟨.identifier "i", "i", ⟨1, 4⟩⟩,
    ⟨.keyword .inBound, "in", ⟨1, 6⟩⟩, ⟨.identifier "n", "n", ⟨1, 9⟩⟩,
    ⟨.keyword .toBound, "to", ⟨1, 11⟩⟩, ⟨.number (.int 2), "2", ⟨1, 14⟩⟩,
    ⟨.keyword .elseClause, "else", ⟨1, 16⟩⟩, ⟨.keyword .elifClause, "elif", ⟨1, 21⟩⟩,
    ⟨.keyword .endBlock, "end", ⟨1, 26⟩⟩]

/-- The loop is refused for its `elif`; that `n` has no value is not even noticed. -/
theorem malformed_statement_refused_first_lateClause :
    let e : Error := ⟨.structural (.clauseAfterElse "elif"), ⟨1, 21⟩⟩
    lateClause.Malformed 0 e ∧ ∃ final, clauseWorld.Looked lateClause final ∧
      (Statement.check lateClause 0).run clauseWorld = .error (.error e) final ∧
      (Statement.execute lateClause 0).run clauseWorld = .error (.error e) final := by
  intro e
  have htrusts : clauseWorld.Trusts lateClause := World.trusts_of_scans rfl _
  obtain ⟨-, hiff, hrefused, -⟩ :=
    malformed_statement_refused_first (σ := Console.Buffered) lateClause 0
  have hcomputed : (answerOf ((Statement.execute lateClause 0).run clauseWorld)).map
      (Except.map Flow.loop?) = some (.error e) := by decide +kernel
  have hmalformed : lateClause.Malformed 0 e := by
    refine (hiff clauseWorld htrusts e).2 ⟨Or.inl rfl, ?_⟩
    revert hcomputed
    rcases (Statement.execute lateClause 0).run clauseWorld with ⟨flow, final⟩ | ⟨_ | _, final⟩
    · intro hcomputed
      cases hcomputed
    · intro hcomputed
      obtain rfl := Except.error.inj (Option.some.inj hcomputed)
      exact ⟨final, rfl⟩
    · intro hcomputed
      cases hcomputed
  obtain ⟨final, hlooked, hcheck, hexecute, -⟩ := hrefused clauseWorld htrusts e hmalformed
  exact ⟨hmalformed, final, hlooked, hcheck, hexecute⟩

end TokenScript
