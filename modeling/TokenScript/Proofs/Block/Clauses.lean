import TokenScript.Proofs.Block.Surface
import TokenScript.Proofs.Escapes
import TokenScript.Proofs.Progress

/-!
# Chains of clauses end at their own `end`

To find the clauses of a block, `if`, `while` and `for` scan again and again, each scan starting
where the one before stopped.  The chain ends at the `end` that matches the opener, the scans stop
at the clause words on the surface of the block and nowhere else, and what is wrong with a malformed
block depends on nothing but its surface.

Scans may be looked up in the memory of closes.  That changes nothing as long as what is remembered
of the code is right; `Looks code x answer` says that an action comes to the same answer in every
world of which this holds, and that it leaves such a world, with nothing changed but the memory and
the journal.

* `Looks`: actions that look at nothing but the code.
* `Statement.clausesFrom`: the clauses of `if` whose words stand at given places.
* `Tiles`: blocks that follow each other, with a clause word between any two.
* `exists_chain_clauses`, `exists_chain_loop`: the chain of `if`, and that of the loops.
-/

namespace TokenScript

open TokenScript.Action

variable {σ α β : Type}

theorem Token.isKeyword_eq {t : Token} {word : Keyword} (h : t.keyword? = some word)
    (other : Keyword) :
    t.isKeyword other = decide (word = other) := by
  have hkind : t.kind = .keyword word := by
    unfold Token.keyword? at h
    split at h
    · next found hkind => rw [hkind, Option.some.inj h]
    · cases h
  simp [Token.isKeyword, hkind]

theorem Token.keyword?_of_identifier? {t : Token} {name : String} (h : t.identifier? = some name) :
    t.keyword? = none := by
  unfold Token.identifier? at h
  split at h
  · next hkind => rw [Token.keyword?, hkind]
  · cases h

/-! ## Looking at the code -/

/-- What the world remembers of the code is what scans find. -/
def World.Trusts (world : World σ) (code : Code) : Prop :=
  ∀ start index, world.closes.bind (·[(code.address, start)]?) = some index →
    ∃ policy, code.policyAt? start = some policy ∧ code.ClosesAt start policy index

/-- A world after a look at the code: closes may have been found, and nothing else is changed. -/
structure World.Looked (code : Code) (world final : World σ) : Prop where
  context : final.context = world.context
  console : final.console = world.console
  held : final.held = world.held
  scans : world.closes = none → final.closes = none
  trusts : final.Trusts code

/-- The answer as the result of an action. -/
def resultIn (final : World σ) : Except Error α → EStateM.Result Abort (World σ) α
  | .ok u => .ok u final
  | .error e => .error (.error e) final

/-- The action comes to this answer in every world that is right about the code. -/
def Looks (code : Code) (x : Action σ α) (answer : Except Error α) : Prop :=
  ∀ world, world.Trusts code →
    ∃ final, world.Looked code final ∧ x.run world = resultIn final answer

theorem World.Trusts.looked {world : World σ} {code : Code} (h : world.Trusts code) :
    world.Looked code world :=
  ⟨rfl, rfl, rfl, id, h⟩

theorem World.trusts_of_scans {world : World σ} (h : world.closes = none) (code : Code) :
    world.Trusts code := by
  intro start index hmemo
  rw [h, Option.bind_none] at hmemo
  cases hmemo

/-- A memory that is right for the code in the frames. -/
theorem Remembers.trusts {frames : List Frame} {world : World σ} (h : Remembers frames world)
    {code : Code} (hcode : code ∈ Frame.codes frames) : world.Trusts code := by
  intro start index hmemo
  obtain ⟨memo, hcloses, hindex⟩ := Option.bind_eq_some_iff.1 hmemo
  obtain ⟨policy, found, hpolicy, hclose, heq⟩ :=
    h.right memo hcloses code (Or.inl hcode) start index hindex
  exact ⟨policy, hpolicy, found, hclose, heq⟩

namespace Looks

variable {code : Code} {x : Action σ α} {f : α → Action σ β} {answer : Except Error β}

theorem of_pure (u : α) : Looks (σ := σ) code (pure u) (.ok u) :=
  fun world htrusts => ⟨world, htrusts.looked, rfl⟩

theorem of_fail (cause : Cause) (span : Span) :
    Looks (σ := σ) (α := α) code (fail cause span) (.error ⟨cause, span⟩) :=
  fun world htrusts => ⟨world, htrusts.looked, rfl⟩

/-- One action after another. -/
theorem bind {u : α} (hx : Looks code x (.ok u)) (hf : Looks code (f u) answer) :
    Looks code (x >>= f) answer := by
  intro world htrusts
  obtain ⟨middle, hmiddle, hfirst⟩ := hx world htrusts
  obtain ⟨final, hfinal, hsecond⟩ := hf middle hmiddle.trusts
  refine ⟨final, ⟨hfinal.context.trans hmiddle.context, hfinal.console.trans hmiddle.console,
    hfinal.held.trans hmiddle.held, fun hscans => hfinal.scans (hmiddle.scans hscans),
    hfinal.trusts⟩, ?_⟩
  change EStateM.bind x f world = resultIn final answer
  simp only [EStateM.run] at hfirst
  rw [EStateM.bind, hfirst]
  exact hsecond

/-- After an error nothing is looked at any more. -/
theorem bind_error {e : Error} (hx : Looks code x (.error e)) :
    Looks code (x >>= f) (.error e) := by
  intro world htrusts
  obtain ⟨final, hfinal, hfirst⟩ := hx world htrusts
  refine ⟨final, hfinal, ?_⟩
  change EStateM.bind x f world = _
  simp only [EStateM.run] at hfirst
  rw [EStateM.bind, hfirst]
  rfl

/-- The answer is passed on through a function. -/
theorem map {answer : Except Error α} (hx : Looks code x answer) (g : α → β) :
    Looks code (x >>= fun u => pure (g u)) (answer.map g) := by
  cases answer with
  | ok u => exact hx.bind (of_pure (g u))
  | error e => exact hx.bind_error

end Looks

section

variable {code : Code} {start : Nat} {t : Token} {word : Keyword}

theorem looks_tokenAt {index : Nat} (ht : code.tokens[index]? = some t) :
    Looks (σ := σ) code (tokenAt code index) (.ok t) := by
  unfold tokenAt
  rw [ht]
  exact Looks.of_pure t

/-- A close is looked up or scanned for, with the same answer. -/
theorem looks_closeOf {policy : BlockPolicy} (hpolicy : code.policyAt? start = some policy) :
    Looks (σ := σ) code (closeOf code start policy)
      ((policy.close code.tokens start).map BlockPolicy.Close.index) := by
  intro world htrusts
  rw [run_closeOf]
  cases hmemo : world.closes.bind (·[(code.address, start)]?) with
  | some index =>
    obtain ⟨other, hother, found, hclose, rfl⟩ := htrusts start index hmemo
    obtain rfl : other = policy := Option.some.inj (hother.symm.trans hpolicy)
    rw [hclose]
    exact ⟨world, htrusts.looked, rfl⟩
  | none =>
    cases hclose : policy.close code.tokens start with
    | error e => exact ⟨world, htrusts.looked, rfl⟩
    | ok found =>
      refine ⟨{ world with
          journal := world.journal.note (.blockMatched start found.index found.keyword)
          closes := world.closes.map (·.insert (code.address, start) found.index) },
        ⟨rfl, rfl, rfl, fun hscans => by simp [hscans], ?_⟩, rfl⟩
      intro place index hmemo
      obtain ⟨memo, hcloses, hindex⟩ := Option.bind_eq_some_iff.1 hmemo
      obtain ⟨old, hold, rfl⟩ := Option.map_eq_some_iff.1 hcloses
      rw [Std.HashMap.getElem?_insert] at hindex
      split at hindex
      · next hkey =>
        obtain ⟨-, rfl⟩ := Prod.mk.inj (eq_of_beq hkey)
        exact ⟨policy, hpolicy, found, hclose, Option.some.inj hindex⟩
      · refine htrusts place index ?_
        rw [hold]
        exact hindex

/-- A scan finds the first stop on the surface of the clause, or there is none and the clause is not
closed. -/
theorem exists_close {policy : BlockPolicy} (hword : code.wordAt? start = some word)
    (hopener : BlockPolicy.ofOpener? word = some policy)
    (hclauses : policy ∈ BlockPolicy.ofClauses) :
    (∃ close, code.FirstMeets start policy.stops close ∧
      Looks (σ := σ) code (closeOf code start policy) (.ok close.index)) ∨
    (∀ index other, code.Meets start index other → other ∉ policy.stops) ∧
      ∃ t, code.tokens[start]? = some t ∧ Looks (σ := σ) code (closeOf code start policy)
        (.error ⟨.unterminatedBlock t.lexeme .endBlock, t.span⟩) := by
  have hpolicy : code.policyAt? start = some policy := by
    rw [Code.policyAt?, ← Code.wordAt?, hword, Option.bind_some, hopener]
  have hlooks := looks_closeOf (σ := σ) hpolicy
  cases hclose : policy.close code.tokens start with
  | ok close =>
    rw [hclose] at hlooks
    exact Or.inl ⟨close, (Code.close_eq_ok_iff_firstMeets hclauses).1 hclose, hlooks⟩
  | error e =>
    obtain ⟨hnone, rfl⟩ := (Code.close_eq_error_iff_not_meets hclauses).1 hclose
    obtain ⟨t, ht, -⟩ := Code.exists_token hword
    have hterminator : policy.terminator = .endBlock := by
      simp only [BlockPolicy.ofClauses, List.mem_cons, List.not_mem_nil, or_false] at hclauses
      rcases hclauses with rfl | rfl | rfl <;> rfl
    rw [hclose, BlockPolicy.unterminated, ht, hterminator] at hlooks
    exact Or.inr ⟨hnone, t, ht, hlooks⟩

/-! ## Chains -/

/-- The chain from an `else` clause on: it ends there. -/
theorem exists_chain_else {words : List Keyword} {otherwise : Nat}
    (hwords : words ⊆ Code.clauseWords) (helse : .elseClause ∈ words)
    (h : code.FirstMeets start (words ++ [.endBlock]) ⟨otherwise, .elseClause⟩) :
    ∃ result : Except Error Nat,
      code.ChainsTo start words (result.map fun stop => ([otherwise], stop)) ∧
      Looks (σ := σ) code (Statement.elseEnd code otherwise) result := by
  rcases exists_close (σ := σ) h.meets.word (rfl : _ = some BlockPolicy.elseClause) (by decide) with
    ⟨close, hfirst, hclose⟩ | ⟨hnone, t, ht, hclose⟩
  · obtain ⟨t, ht, hkeyword⟩ := Code.exists_token hfirst.meets.word
    have hmem : close.keyword ∈ Code.clauseWords ++ [.endBlock] := hfirst.mem
    rcases List.mem_append.1 hmem with hclause | hend
    · refine ⟨.error ⟨.structural (.clauseAfterElse t.lexeme), t.span⟩,
        Code.chainsTo_of_else_clause h helse hfirst hclause ht,
        hclose.bind ((looks_tokenAt ht).bind ?_)⟩
      have hne : close.keyword ≠ .endBlock := by
        rintro heq
        rw [heq] at hclause
        exact absurd hclause (by decide)
      rw [Token.isKeyword_eq hkeyword, if_neg (by simpa using hne)]
      exact Looks.of_fail _ _
    · obtain ⟨stop, keyword⟩ := close
      obtain rfl : keyword = .endBlock := List.mem_singleton.1 hend
      refine ⟨.ok stop, Code.chainsTo_of_else_end hwords h helse hfirst,
        hclose.bind ((looks_tokenAt ht).bind ?_)⟩
      rw [Token.isKeyword_eq hkeyword, if_pos (by simp)]
      exact Looks.of_pure stop
  · exact ⟨.error ⟨.unterminatedBlock t.lexeme .endBlock, t.span⟩,
      Code.chainsTo_of_else_not_meets hwords h helse hnone ht, hclose.bind_error⟩

/-- The clause whose word stands at `place` and which ends at `stop`. -/
def Statement.clauseAt (code : Code) (place stop : Nat) : Clause :=
  if code.wordAt? place = some .elseClause then ⟨none, ⟨place + 1, stop⟩⟩
  else ⟨some (place + 1), ⟨Expression.endFrom code.tokens (place + 1), stop⟩⟩

/-- The clause at `place` and those behind it, whose words stand at `places`; the last ends at
`stop`. -/
def Statement.clausesFrom (code : Code) (place : Nat) : List Nat → Nat → List Clause
  | [], stop => [clauseAt code place stop]
  | next :: places, stop => clauseAt code place next :: clausesFrom code next places stop

section

variable {found : Array Statement.Clause} {close : Nat}

theorem looks_clauses_end (hword : code.wordAt? start = some .endBlock)
    (found : Array Statement.Clause) :
    Looks (σ := σ) code (Statement.clauses code start found) (.ok (found, start)) := by
  obtain ⟨t, ht, hkeyword⟩ := Code.exists_token hword
  rw [Statement.clauses]
  refine (looks_tokenAt ht).bind ?_
  simp only [Token.isKeyword_eq hkeyword]
  exact Looks.of_pure (found, start)

theorem looks_clauses_else {result : Except Error Nat}
    (hword : code.wordAt? start = some .elseClause)
    (hend : Looks (σ := σ) code (Statement.elseEnd code start) result)
    (found : Array Statement.Clause) :
    Looks (σ := σ) code (Statement.clauses code start found)
      (result.map fun stop => (found.push (Statement.clauseAt code start stop), stop)) := by
  obtain ⟨t, ht, hkeyword⟩ := Code.exists_token hword
  rw [Statement.clauses]
  refine (looks_tokenAt ht).bind ?_
  simp only [Token.isKeyword_eq hkeyword, Statement.clauseAt, hword]
  exact hend.map _

/-- A clause with a condition ends where the scan for its close stops, and the next one starts
there. -/
theorem clauses_of_condition (hword : code.wordAt? start = some word)
    (hcondition : word = .ifClause ∨ word = .elifClause) (found : Array Statement.Clause) :
    Statement.clauses (σ := σ) code start found =
      closeOf code start .conditional >>= fun close =>
        if start < close ∧ close < code.size then
          Statement.clauses code close (found.push (Statement.clauseAt code start close))
        else throw .fault := by
  obtain ⟨t, ht, hkeyword⟩ := Code.exists_token hword
  have hcond : (t.isKeyword .ifClause || t.isKeyword .elifClause) = true := by
    simpa [Token.isKeyword_eq hkeyword] using hcondition
  have helse : ¬code.wordAt? start = some .elseClause := by
    rw [hword]
    rcases hcondition with rfl | rfl <;> decide
  rw [Statement.clauses]
  simp only [tokenAt, ht, pure_bind, if_pos hcond, Statement.clauseAt, if_neg helse]

end

/-- The chain of the clauses of `if`, from one of its conditions on. -/
theorem exists_chain_clauses (hword : code.wordAt? start = some word)
    (hcondition : word = .ifClause ∨ word = .elifClause) (found : Array Statement.Clause) :
    ∃ result, code.ChainsTo start Code.clauseWords result ∧
      Looks (σ := σ) code (Statement.clauses code start found) (result.map fun chain =>
        (found ++ (Statement.clausesFrom code start chain.1 chain.2).toArray, chain.2)) := by
  -- each scan starts behind the one before
  induction hleft : code.size - start using Nat.strong_induction_on
    generalizing start word found with
  | _ left ih =>
    have hopener : BlockPolicy.ofOpener? word = some .conditional := by
      rcases hcondition with rfl | rfl <;> rfl
    rw [clauses_of_condition hword hcondition]
    rcases exists_close (σ := σ) hword hopener (by decide) with
      ⟨⟨close, keyword⟩, hfirst, hclose⟩ | ⟨hnone, t, ht, hclose⟩
    · have hbounds : start < close ∧ close < code.size :=
        ⟨hfirst.meets.surface.lt, Code.lt_size_of_wordAt? hfirst.meets.word⟩
      have hmem : keyword = .elifClause ∨ keyword = .elseClause ∨ keyword = .endBlock := by
        simpa [BlockPolicy.conditional] using hfirst.mem
      rcases hmem with rfl | rfl | rfl
      · obtain ⟨result, hchain, hrest⟩ :=
          ih (code.size - close) (by omega) hfirst.meets.word (Or.inr rfl)
          (found.push (Statement.clauseAt code start close)) rfl
        refine ⟨_, Code.chainsTo_of_elif hfirst hchain, hclose.bind ?_⟩
        rw [if_pos hbounds]
        cases result with
        | error e => exact hrest
        | ok chain => simpa [Except.map, Statement.clausesFrom] using hrest
      · obtain ⟨result, hchain, hend⟩ :=
          exists_chain_else (σ := σ) (List.Subset.refl _) (by decide) hfirst
        refine ⟨_, hchain, hclose.bind ?_⟩
        rw [if_pos hbounds]
        have hrest :=
          looks_clauses_else hfirst.meets.word hend
            (found.push (Statement.clauseAt code start close))
        cases result with
        | error e => exact hrest
        | ok stop =>
          have hpush (first last : Statement.Clause) :
              (found.push first).push last = found ++ [first, last].toArray := by
            exact Array.ext' (by simp)
          simp only [Except.map, hpush] at hrest
          exact hrest
      · refine ⟨.ok ([], close), Code.chainsTo_of_end (List.Subset.refl _) (by decide) hfirst,
          hclose.bind ?_⟩
        rw [if_pos hbounds]
        simpa [Except.map, Statement.clausesFrom] using
          looks_clauses_end (σ := σ) hfirst.meets.word
            (found.push (Statement.clauseAt code start close))
    · exact ⟨.error _, Code.chainsTo_of_not_meets (by decide) hnone ht, hclose.bind_error⟩

/-- The form of a loop with a chain of clauses. -/
def Statement.formOf (chain : List Nat × Nat) : Nat × Option Extent × Nat :=
  (chain.1.headD chain.2, chain.1.head?.map fun place => ⟨place + 1, chain.2⟩, chain.2)

/-- The chain of the clauses of a loop. -/
theorem exists_chain_loop (hword : code.wordAt? start = some word)
    (hloop : word = .whileLoop ∨ word = .forLoop) :
    ∃ result, code.ChainsTo start [.elseClause] result ∧
      Looks (σ := σ) code (Statement.loopForm code start) (result.map Statement.formOf) := by
  have hopener : BlockPolicy.ofOpener? word = some .loop := by
    rcases hloop with rfl | rfl <;> rfl
  have hwords : [Keyword.elseClause] ⊆ Code.clauseWords := by decide
  rcases exists_close (σ := σ) hword hopener (by decide) with
    ⟨⟨close, keyword⟩, hfirst, hclose⟩ | ⟨hnone, t, ht, hclose⟩
  · obtain ⟨t, ht, hkeyword⟩ := Code.exists_token hfirst.meets.word
    have hmem : keyword = .elseClause ∨ keyword = .endBlock := by
      simpa [BlockPolicy.loop] using hfirst.mem
    rcases hmem with rfl | rfl
    · obtain ⟨result, hchain, hend⟩ := exists_chain_else (σ := σ) hwords (by decide) hfirst
      have hlook : Looks (σ := σ) code (Statement.loopElse code close)
          (result.map fun stop => (some ⟨close + 1, stop⟩, stop)) := by
        refine (looks_tokenAt ht).bind ?_
        simp only [Token.isKeyword_eq hkeyword]
        exact hend.map _
      refine ⟨_, hchain, hclose.bind ?_⟩
      have hform := hlook.map fun ending => (close, ending)
      cases result <;> exact hform
    · have hlook : Looks (σ := σ) code (Statement.loopElse code close) (.ok (none, close)) := by
        refine (looks_tokenAt ht).bind ?_
        simp only [Token.isKeyword_eq hkeyword]
        exact Looks.of_pure (none, close)
      exact ⟨.ok ([], close), Code.chainsTo_of_end hwords (by decide) hfirst,
        hclose.bind (hlook.map fun ending => (close, ending))⟩
  · exact ⟨.error _, Code.chainsTo_of_not_meets (by decide) hnone ht, hclose.bind_error⟩

/-! ## Bodies -/

/-- Blocks that follow each other.  The first lies behind the word at `place`, each ends at a word
behind which the next one lies, and the last ends at `stop`. -/
inductive Tiles : Nat → List Nat → Nat → List Extent → Prop
  | last {place stop : Nat} {body : Extent} (lt : place < body.start) (le : body.start ≤ body.stop)
      (ends : body.stop = stop) : Tiles place [] stop [body]
  | cons {place next stop : Nat} {places : List Nat} {body : Extent} {bodies : List Extent}
      (lt : place < body.start) (le : body.start ≤ body.stop) (ends : body.stop = next)
      (rest : Tiles next places stop bodies) : Tiles place (next :: places) stop (body :: bodies)

/-- An expression ends before every reserved word behind its start. -/
theorem Expression.endFrom_le_of_wordAt? {index : Nat} (hword : code.wordAt? index = some word)
    (hle : start ≤ index) : endFrom code.tokens start ≤ index := by
  obtain ⟨t, ht, hkeyword⟩ := Code.exists_token hword
  obtain ⟨hsize, hget⟩ := Array.getElem?_eq_some_iff.1 ht
  fun_induction endFrom code.tokens start with
  | case1 start hlt hbearing ih =>
    refine ih (Nat.succ_le_of_lt (Nat.lt_of_le_of_ne hle ?_))
    rintro rfl
    rw [hget] at hbearing
    unfold Token.keyword? at hkeyword
    unfold Token.isValueBearing at hbearing
    split at hkeyword
    · next hkind => simp [hkind] at hbearing
    · cases hkeyword
  | case2 => exact hle
  | case3 start hge => omega

section

variable {words : List Keyword} {places : List Nat} {stop : Nat}

/-- A chain goes from left to right, from word to word. -/
theorem Code.ChainsTo.sorted (h : code.ChainsTo start words (.ok (places, stop)))
    (hwords : words ⊆ Code.clauseWords) :
    (start :: (places ++ [stop])).Pairwise (· < ·) ∧
      ∀ index ∈ places ++ [stop], ∃ word, code.wordAt? index = some word := by
  obtain ⟨hstop, hsorted, hmem, -, -⟩ := h
  have hmeets : ∀ index ∈ places, ∃ word ∈ words, code.Meets start index word :=
    fun index => (hmem index).1
  constructor
  · refine List.pairwise_cons.2 ⟨fun index hindex => ?_, List.pairwise_append.2
      ⟨hsorted, List.pairwise_singleton _ _, fun index hindex last hlast => ?_⟩⟩
    · rcases List.mem_append.1 hindex with hindex | hindex
      · obtain ⟨word, -, hindex⟩ := hmeets index hindex
        exact hindex.surface.lt
      · rw [List.mem_singleton.1 hindex]
        exact hstop.surface.lt
    · obtain ⟨word, hword, hindex⟩ := hmeets index hindex
      rw [List.mem_singleton.1 hlast]
      refine Nat.lt_of_le_of_ne (hstop.le_of_end hindex.surface) ?_
      rintro rfl
      exact absurd (hwords hword) (by rw [hindex.word_eq hstop]; decide)
  · intro index hindex
    rcases List.mem_append.1 hindex with hindex | hindex
    · obtain ⟨word, -, hindex⟩ := hmeets index hindex
      exact ⟨word, hindex.word⟩
    · rw [List.mem_singleton.1 hindex]
      exact ⟨_, hstop.word⟩

/-- The first body ends at a clause word or at the `end`. -/
theorem Code.ChainsTo.exists_meets_headD (h : code.ChainsTo start words (.ok (places, stop))) :
    ∃ word ∈ words ++ [.endBlock], code.Meets start (places.headD stop) word := by
  obtain ⟨hstop, -, hmem, -, -⟩ := h
  cases places with
  | nil => exact ⟨.endBlock, by simp, hstop⟩
  | cons place places =>
    obtain ⟨word, hword, hmeets⟩ := (hmem place).1 List.mem_cons_self
    exact ⟨word, List.mem_append_left _ hword, hmeets⟩

/-- A loop has one `else` clause at most. -/
theorem Code.ChainsTo.eq_nil_or_singleton
    (h : code.ChainsTo start [.elseClause] (.ok (places, stop))) :
    places = [] ∨ ∃ otherwise, places = [otherwise] := by
  obtain ⟨-, hsorted, hmem, hlast, -⟩ := h
  match places with
  | [] => exact Or.inl rfl
  | [otherwise] => exact Or.inr ⟨otherwise, rfl⟩
  | first :: second :: rest =>
    obtain ⟨word, hword, hmeets⟩ := (hmem first).1 List.mem_cons_self
    obtain rfl := List.mem_singleton.1 hword
    -- the first of them would have to be the last
    have hlast := hlast first List.mem_cons_self hmeets.word
    rw [List.getLast?_cons_cons] at hlast
    have hlt := (List.pairwise_cons.1 hsorted).1 first (List.mem_of_getLast? hlast)
    exact absurd hlt (Nat.lt_irrefl first)

theorem Statement.tiles_clauseAt {place : Nat} (hlt : place < stop)
    (hstop : code.wordAt? stop = some word) :
    place < (clauseAt code place stop).body.start ∧
      (clauseAt code place stop).body.start ≤ (clauseAt code place stop).body.stop ∧
      (clauseAt code place stop).body.stop = stop := by
  have hsize : place + 1 ≤ code.size :=
    Nat.le_trans hlt (Nat.le_of_lt (Code.lt_size_of_wordAt? hstop))
  unfold clauseAt
  split
  · exact ⟨Nat.lt_succ_self place, hlt, rfl⟩
  · exact ⟨Expression.le_endFrom hsize, Expression.endFrom_le_of_wordAt? hstop hlt, rfl⟩

/-- The bodies of the clauses of `if` follow each other. -/
theorem Statement.tiles_clausesFrom {place : Nat}
    (hsorted : (place :: (places ++ [stop])).Pairwise (· < ·))
    (hwords : ∀ index ∈ places ++ [stop], ∃ word, code.wordAt? index = some word) :
    Tiles place places stop ((clausesFrom code place places stop).map Clause.body) := by
  induction places generalizing place with
  | nil =>
    obtain ⟨word, hword⟩ := hwords stop (by simp)
    obtain ⟨hlt, hle, hends⟩ :=
      tiles_clauseAt ((List.pairwise_cons.1 hsorted).1 stop (by simp)) hword
    exact .last hlt hle hends
  | cons next places ih =>
    obtain ⟨hbefore, hsorted⟩ := List.pairwise_cons.1 hsorted
    obtain ⟨word, hword⟩ := hwords next (by simp)
    obtain ⟨hlt, hle, hends⟩ := tiles_clauseAt (hbefore next (by simp)) hword
    exact .cons hlt hle hends
      (ih hsorted fun index hindex => hwords index (List.mem_cons_of_mem next hindex))

/-- The blocks of a loop: its body, and its `else` clause if it has one. -/
def Loop.blocks (loop : Loop) : List Extent := loop.body :: loop.otherwise.toList

/-- The body of a loop and its `else` clause follow each other. -/
theorem Loop.tiles_ofForm {line body : Nat}
    (h : code.ChainsTo start [.elseClause] (.ok (places, stop))) (hlt : start < body)
    (hle : body ≤ places.headD stop) :
    Tiles start places stop (Loop.ofForm line body (Statement.formOf (places, stop))).blocks := by
  rcases h.eq_nil_or_singleton with rfl | ⟨otherwise, rfl⟩
  · exact .last hlt hle rfl
  · have hstop : otherwise < stop := by
      have hsorted := (h.sorted (by decide)).1
      simp only [List.singleton_append, List.pairwise_cons, List.mem_cons, List.not_mem_nil,
        or_false] at hsorted
      exact hsorted.2.1 stop rfl
    exact .cons hlt hle rfl (.last (Nat.lt_succ_self otherwise) hstop rfl)

end

/-! ## Heads of loops -/

theorem looks_expectKeyword {index : Nat} (hword : code.wordAt? index = some word) :
    Looks (σ := σ) code (Statement.expectKeyword code index word) (.ok ()) := by
  obtain ⟨u, hu, hkeyword⟩ := Code.exists_token hword
  simp only [Statement.expectKeyword, hu, Token.isKeyword_eq hkeyword]
  exact Looks.of_pure ()

theorem looks_expectBound {first last : Nat} (hne : last ≠ first) (after : Keyword) :
    Looks (σ := σ) code (Statement.expectBound code first last after) (.ok ()) := by
  rw [Statement.expectBound, if_neg hne]
  exact Looks.of_pure ()

theorem looks_forForm {name : String} {answer : Except Error (Nat × Option Extent × Nat)}
    (hhead : code.ForHead start name)
    (h : Looks (σ := σ) code (Statement.loopForm code start) answer) :
    Looks (σ := σ) code (Statement.forForm code start) (answer.map fun form => (name, form)) := by
  obtain ⟨u, hu, hname⟩ := hhead.name
  have hexpect :
      Looks (σ := σ) code (Statement.expectName code (start + 1) .forLoop)
        (.ok (name, u.span)) := by
    simp only [Statement.expectName, hu, hname]
    exact Looks.of_pure _
  refine hexpect.bind
    ((looks_expectKeyword hhead.inWord).bind ((looks_expectKeyword hhead.toWord).bind
    ((looks_expectBound hhead.first _).bind ((looks_expectBound hhead.last _).bind ?_))))
  have hform := h.map fun form => (name, form)
  simp only [Statement.loopForm, bind_assoc, pure_bind] at hform
  exact hform

theorem looks_whileLoop {answer : Except Error (Nat × Option Extent × Nat)} [Console σ]
    (h : Looks (σ := σ) code (Statement.loopForm code start) answer) (line : Nat) :
    Looks (σ := σ) code (Statement.whileLoop code start line) (answer.map fun form =>
      .retest (start + 1) (.ofForm line (Expression.endFrom code.tokens (start + 1)) form)
        (form.2.2 + 1)) := by
  have hform := h.map fun form : Nat × Option Extent × Nat => Flow.retest (start + 1)
    (.ofForm line (Expression.endFrom code.tokens (start + 1)) form) (form.2.2 + 1)
  simp only [Statement.loopForm, bind_assoc, pure_bind] at hform
  exact hform

/-- The body of a `while` loop lies between its head and the end of the body. -/
theorem le_whileBody {index : Nat} (hlt : start < index) (hword : code.wordAt? index = some word) :
    start < Expression.endFrom code.tokens (start + 1) ∧
      Expression.endFrom code.tokens (start + 1) ≤ index :=
  ⟨Expression.le_endFrom (Nat.le_trans hlt (Nat.le_of_lt (Code.lt_size_of_wordAt? hword))),
    Expression.endFrom_le_of_wordAt? hword hlt⟩

/-- The body of a `for` loop lies between its head and the end of the body: no word of the head ends
it. -/
theorem le_forBody {name : String} {index : Nat} (hhead : code.ForHead start name)
    (hlt : start < index) (hword : code.wordAt? index = some word) (hin : word ≠ .inBound)
    (hto : word ≠ .toBound) :
    start < code.forBody start ∧ code.forBody start ≤ index := by
  obtain ⟨u, hu, hname⟩ := hhead.name
  have hfirst : index ≠ start + 1 := by
    rintro rfl
    rw [Code.wordAt?, hu, Option.bind_some, Token.keyword?_of_identifier? hname] at hword
    cases hword
  have hsecond : index ≠ start + 2 := by
    rintro rfl
    exact hin (Option.some.inj (hword.symm.trans hhead.inWord))
  have hbound := Expression.endFrom_le_of_wordAt? hword (show start + 3 ≤ index by omega)
  have hthird : index ≠ Expression.endFrom code.tokens (start + 3) := by
    rintro rfl
    exact hto (Option.some.inj (hword.symm.trans hhead.toWord))
  have hsize : index < code.tokens.size := Code.lt_size_of_wordAt? hword
  have hle : start + 3 ≤ Expression.endFrom code.tokens (start + 3) :=
    Expression.le_endFrom (by omega)
  have hbody : Expression.endFrom code.tokens (start + 3) + 1 ≤ code.forBody start :=
    Expression.le_endFrom (by omega)
  exact ⟨by omega, Expression.endFrom_le_of_wordAt? hword (by omega)⟩

section

variable {places : List Nat} {stop : Nat}

theorem Code.ChainsTo.tiles_clauses
    (h : code.ChainsTo start Code.clauseWords (.ok (places, stop))) :
    Tiles start places stop
      ((Statement.clausesFrom code start places stop).map Statement.Clause.body) := by
  obtain ⟨hsorted, hwords⟩ := h.sorted (List.Subset.refl _)
  exact Statement.tiles_clausesFrom hsorted hwords

theorem Code.ChainsTo.tiles_while (h : code.ChainsTo start [.elseClause] (.ok (places, stop)))
    (line : Nat) :
    Tiles start places stop
      (Loop.ofForm line (Expression.endFrom code.tokens (start + 1))
        (Statement.formOf (places, stop))).blocks := by
  obtain ⟨word, -, hmeets⟩ := h.exists_meets_headD
  obtain ⟨hlt, hle⟩ := le_whileBody hmeets.surface.lt hmeets.word
  exact Loop.tiles_ofForm h hlt hle

theorem Code.ChainsTo.tiles_for {name : String}
    (h : code.ChainsTo start [.elseClause] (.ok (places, stop))) (hhead : code.ForHead start name)
    (line : Nat) :
    Tiles start places stop
      (Loop.ofForm line (code.forBody start) (Statement.formOf (places, stop))).blocks := by
  obtain ⟨word, hmem, hmeets⟩ := h.exists_meets_headD
  have hends : word = .elseClause ∨ word = .endBlock := by simpa using hmem
  obtain ⟨hlt, hle⟩ := le_forBody hhead hmeets.surface.lt hmeets.word
    (by rcases hends with rfl | rfl <;> decide) (by rcases hends with rfl | rfl <;> decide)
  exact Loop.tiles_ofForm h hlt hle

end

/-- A `for` loop is refused with the error of its form, before a bound is evaluated. -/
theorem looks_forLoop_error {e : Error} [Console σ]
    (h : Looks (σ := σ) code (Statement.forForm code start) (.error e)) (line : Nat) :
    Looks (σ := σ) code (Statement.forLoop code start line) (.error e) := by
  rw [forLoop_eq]
  exact h.bind_error

/-- A `for` loop goes on behind its `end`, with the loop of its form if its bounds are integers. -/
theorem flow_of_forLoop {name : String} {chain : List Nat × Nat} [Console σ]
    (h : Looks (σ := σ) code (Statement.forForm code start) (.ok (name, Statement.formOf chain)))
    {line : Nat} {world final : World σ} {flow : Flow} (htrusts : world.Trusts code)
    (hrun : (Statement.forLoop code start line).run world = .ok flow final) :
    flow = .advance (chain.2 + 1) ∨ ∃ low high, flow = .count name low high
      (.ofForm line (code.forBody start) (Statement.formOf chain)) (chain.2 + 1) := by
  rw [forLoop_eq] at hrun
  obtain ⟨form, middle, hfirst, hrun⟩ := exists_ok_of_bind hrun
  obtain rfl : (name, Statement.formOf chain) = form := by
    obtain ⟨other, -, hform⟩ := h world htrusts
    cases hform.symm.trans hfirst
    rfl
  obtain ⟨low, later, -, hrun⟩ := exists_ok_of_bind hrun
  cases low with
  | none =>
    cases hrun
    exact Or.inl rfl
  | some low =>
    obtain ⟨high, last, -, hrun⟩ := exists_ok_of_bind hrun
    cases high with
    | none =>
      cases hrun
      exact Or.inl rfl
    | some high =>
      cases hrun
      exact Or.inr ⟨low, high, rfl⟩

/-! ## The clause scan -/

section

variable {words : List Keyword} {result : Except Error (List Nat × Nat)}

/-- What the clause scan of a block comes to, with the condition for each of the three ways it
ends. -/
structure Code.Settles (code : Code) (start : Nat) (words : List Keyword)
    (result : Except Error (List Nat × Nat)) : Prop where
  chains : code.ChainsTo start words result
  ok_iff : (∃ chain, result = .ok chain) ↔
    (∃ stop, code.Meets start stop .endBlock) ∧
    ∀ otherwise next, ¬code.ClauseAfterElse start otherwise next
  structural_iff : (∃ e, result = .error e ∧ e.kind = .structural) ↔
    ∃ otherwise next, code.ClauseAfterElse start otherwise next
  block_iff : (∃ e, result = .error e ∧ e.kind = .block) ↔
    (∀ stop, ¬code.Meets start stop .endBlock) ∧
    ∀ otherwise next, ¬code.ClauseAfterElse start otherwise next

theorem Code.ChainsTo.settles (h : code.ChainsTo start words result) :
    code.Settles start words result := by
  rcases result with e | ⟨places, stop⟩
  · rcases h with ⟨otherwise, next, u, hafter, hu, rfl⟩ |
      ⟨hnone, hopen, last, u, hlast, hle, hu, rfl⟩
    · refine ⟨Or.inl ⟨otherwise, next, u, hafter, hu, rfl⟩,
        ⟨nofun, fun h => absurd hafter (h.2 _ _)⟩,
        ⟨fun _ => ⟨_, _, hafter⟩, fun _ => ⟨_, rfl, rfl⟩⟩, ⟨?_, fun h => absurd hafter (h.2 _ _)⟩⟩
      rintro ⟨_, ⟨⟩, ⟨⟩⟩
    · refine ⟨Or.inr ⟨hnone, hopen, last, u, hlast, hle, hu, rfl⟩,
        ⟨nofun, fun ⟨⟨stop, hstop⟩, _⟩ => absurd hstop (hopen stop)⟩,
        ⟨?_, fun ⟨otherwise, next, hafter⟩ => absurd hafter (hnone otherwise next)⟩,
        ⟨fun _ => ⟨hopen, hnone⟩, fun _ => ⟨_, rfl, rfl⟩⟩⟩
      rintro ⟨_, ⟨⟩, ⟨⟩⟩
  · have ⟨hstop, _, _, _, hnone⟩ := h
    refine ⟨h, ⟨fun _ => ⟨⟨stop, hstop⟩, hnone⟩, fun _ => ⟨_, rfl⟩⟩, ⟨?_, ?_⟩, ⟨?_, ?_⟩⟩
    · rintro ⟨_, ⟨⟩, -⟩
    · rintro ⟨otherwise, next, hafter⟩
      exact absurd hafter (hnone otherwise next)
    · rintro ⟨_, ⟨⟩, -⟩
    · rintro ⟨hopen, -⟩
      exact absurd hstop (hopen stop)

/-- At every moment of a run the world is right about the code in its frames. -/
theorem Context.trusts_of_reaches [Console σ] {context : Context} {console : σ} {journal : Journal}
    {tokens : Array Token} {later : Machine σ}
    (h : (context.machine console journal tokens).Reaches later) {frame : Frame}
    (hframe : frame ∈ later.frames) {code : Code} (hcode : frame.code? = some code) :
    later.world.Trusts code := by
  obtain ⟨plain, -, halike⟩ :=
    Machine.exists_reaches_alike (context.alike_start console _ tokens _) h
  exact halike.memory.trusts (List.mem_filterMap.2 ⟨frame, hframe, hcode⟩)

end
end

/-- Every clause scan comes to the `end` that matches the opener, in every world that is right about
the code; and so are all worlds of all runs.

* The words of the chain are the clause words on the surface of the block, the last of them alone
  can be an `else`, and the bodies follow each other.
* The scan succeeds if there is a matching `end` and no clause follows the `else` clause, and fails
  with the first such clause, or with the last word that it reached.
* A loop has the `else` clause alone; its `elif` words are passed over. -/
theorem clause_chain_ends_at_own_end [Console σ] (code : Code) (start : Nat) :
    (code.wordAt? start = some .ifClause →
      ∃ result, code.Settles start Code.clauseWords result ∧
        Looks (σ := σ) code (Statement.clauses code start #[]) (result.map fun chain =>
          ((Statement.clausesFrom code start chain.1 chain.2).toArray, chain.2)) ∧
        ∀ places stop, result = .ok (places, stop) →
          Tiles start places stop
            ((Statement.clausesFrom code start places stop).map Statement.Clause.body)) ∧
    (code.wordAt? start = some .whileLoop →
      ∃ result, code.Settles start [.elseClause] result ∧ ∀ line,
        let loop := fun chain =>
          Loop.ofForm line (Expression.endFrom code.tokens (start + 1)) (Statement.formOf chain)
        Looks (σ := σ) code (Statement.whileLoop code start line)
          (result.map fun chain => .retest (start + 1) (loop chain) (chain.2 + 1)) ∧
        ∀ places stop, result = .ok (places, stop) →
          Tiles start places stop (loop (places, stop)).blocks) ∧
    (∀ name, code.wordAt? start = some .forLoop → code.ForHead start name →
      ∃ result, code.Settles start [.elseClause] result ∧
        Looks (σ := σ) code (Statement.forForm code start)
          (result.map fun chain => (name, Statement.formOf chain)) ∧
        ∀ line,
          let loop := fun chain => Loop.ofForm line (code.forBody start) (Statement.formOf chain)
          (∀ e, result = .error e →
            Looks (σ := σ) code (Statement.forLoop code start line) (.error e)) ∧
          ∀ places stop, result = .ok (places, stop) →
            Tiles start places stop (loop (places, stop)).blocks ∧
            ∀ (world final : World σ) (flow : Flow), world.Trusts code →
              (Statement.forLoop code start line).run world = .ok flow final →
              flow = .advance (stop + 1) ∨
                ∃ low high, flow = .count name low high (loop (places, stop)) (stop + 1)) ∧
    ∀ (context : Context) (console : σ) (journal : Journal) (tokens : Array Token)
        (later : Machine σ),
      (context.machine console journal tokens).Reaches later →
      ∀ frame ∈ later.frames, frame.code? = some code → later.world.Trusts code := by
  refine ⟨fun hword => ?_, fun hword => ?_, fun name hword hhead => ?_,
    fun context console journal tokens later hreaches frame hframe hcode =>
      Context.trusts_of_reaches hreaches hframe hcode⟩
  · obtain ⟨result, hchain, hlooks⟩ := exists_chain_clauses (σ := σ) hword (Or.inl rfl) #[]
    simp only [Array.empty_append] at hlooks
    refine ⟨result, hchain.settles, hlooks, ?_⟩
    rintro places stop rfl
    exact Code.ChainsTo.tiles_clauses hchain
  · obtain ⟨result, hchain, hlooks⟩ := exists_chain_loop (σ := σ) hword (Or.inl rfl)
    refine ⟨result, hchain.settles, fun line => ⟨?_, ?_⟩⟩
    · have hloop := looks_whileLoop hlooks line
      cases result <;> exact hloop
    · rintro places stop rfl
      exact Code.ChainsTo.tiles_while hchain line
  · obtain ⟨result, hchain, hlooks⟩ := exists_chain_loop (σ := σ) hword (Or.inr rfl)
    have hform : Looks (σ := σ) code (Statement.forForm code start)
        (result.map fun chain => (name, Statement.formOf chain)) := by
      have hform := looks_forForm hhead hlooks
      cases result <;> exact hform
    refine ⟨result, hchain.settles, hform, fun line => ⟨?_, ?_⟩⟩
    · rintro e rfl
      exact looks_forLoop_error hform line
    · rintro places stop rfl
      exact ⟨Code.ChainsTo.tiles_for hchain hhead line,
        fun world final flow htrusts hrun => flow_of_forLoop hform htrusts hrun⟩

/-- What an action came to, unless it was a fault. -/
def answerOf : EStateM.Result Abort (World σ) α → Option (Except Error α)
  | .ok u _ => some (.ok u)
  | .error (.error e) _ => some (.error e)
  | .error .fault _ => none

theorem Looks.answerOf_eq {code : Code} {x : Action σ α} {answer : Except Error α}
    (h : Looks code x answer) {world : World σ} (htrusts : world.Trusts code) :
    answerOf (x.run world) = some answer := by
  obtain ⟨final, -, hrun⟩ := h world htrusts
  rw [hrun]
  cases answer <;> rfl

/-- The tokens of `if 1 if else end elif else end`, of `while elif else end`, and of
`for i in 1 to 2 else elif end`. -/
def clauseChains : Code := .program
  #[⟨.keyword .ifClause, "if", ⟨1, 0⟩⟩, ⟨.number (.int 1), "1", ⟨1, 3⟩⟩,
    ⟨.keyword .ifClause, "if", ⟨1, 5⟩⟩, ⟨.keyword .elseClause, "else", ⟨1, 8⟩⟩,
    ⟨.keyword .endBlock, "end", ⟨1, 13⟩⟩, ⟨.keyword .elifClause, "elif", ⟨1, 17⟩⟩,
    ⟨.keyword .elseClause, "else", ⟨1, 22⟩⟩, ⟨.keyword .endBlock, "end", ⟨1, 27⟩⟩,
    ⟨.keyword .whileLoop, "while", ⟨2, 0⟩⟩, ⟨.keyword .elifClause, "elif", ⟨2, 6⟩⟩,
    ⟨.keyword .elseClause, "else", ⟨2, 11⟩⟩, ⟨.keyword .endBlock, "end", ⟨2, 16⟩⟩,
    ⟨.keyword .forLoop, "for", ⟨3, 0⟩⟩, ⟨.identifier "i", "i", ⟨3, 4⟩⟩,
    ⟨.keyword .inBound, "in", ⟨3, 6⟩⟩, ⟨.number (.int 1), "1", ⟨3, 9⟩⟩,
    ⟨.keyword .toBound, "to", ⟨3, 11⟩⟩, ⟨.number (.int 2), "2", ⟨3, 14⟩⟩,
    ⟨.keyword .elseClause, "else", ⟨3, 16⟩⟩, ⟨.keyword .elifClause, "elif", ⟨3, 21⟩⟩,
    ⟨.keyword .endBlock, "end", ⟨3, 26⟩⟩]

/-- The loop that a statement runs, and where it goes on. -/
def Flow.loop? : Flow → Option (Loop × Nat)
  | .retest _ loop next | .count _ _ _ loop next => some (loop, next)
  | _ => none

/-- A world that scans `clauseChains`. -/
def clauseWorld : World Console.Buffered :=
  { (Context.fresh 0).world ⟨[], []⟩ .silent with closes := none }

theorem clause_chain_ends_at_own_end_clauseChains :
    clauseChains.wordAt? 0 = some .ifClause ∧ clauseChains.wordAt? 8 = some .whileLoop ∧
    clauseChains.wordAt? 12 = some .forLoop ∧ clauseChains.ForHead 12 "i" ∧
    (∃ places, clauseChains.Settles 0 Code.clauseWords (.ok (places, 7)) ∧
      Tiles 0 places 7 [⟨2, 5⟩, ⟨6, 6⟩, ⟨7, 7⟩]) ∧
    (∃ places, clauseChains.Settles 8 [.elseClause] (.ok (places, 11)) ∧
      Tiles 8 places 11 [⟨9, 10⟩, ⟨11, 11⟩]) ∧
    clauseChains.Settles 12 [.elseClause]
      (.error ⟨.structural (.clauseAfterElse "elif"), ⟨3, 21⟩⟩) ∧
    ((Context.fresh 0).machine (⟨[], []⟩ : Console.Buffered) .silent
      clauseChains.tokens).world.Trusts
      clauseChains := by
  have htrusts : clauseWorld.Trusts clauseChains := World.trusts_of_scans rfl _
  have hif : clauseChains.wordAt? 0 = some .ifClause := by decide
  have hwhile : clauseChains.wordAt? 8 = some .whileLoop := by decide
  have hfor : clauseChains.wordAt? 12 = some .forLoop := by decide
  have hto : Expression.endFrom clauseChains.tokens 15 = 16 := by decide +kernel
  have hbody : Expression.endFrom clauseChains.tokens 17 = 18 := by decide +kernel
  have hhead : clauseChains.ForHead 12 "i" :=
    ⟨⟨⟨.identifier "i", "i", ⟨3, 4⟩⟩, by decide, by decide⟩, by decide, by rw [hto]; decide,
      by rw [hto]; decide, by rw [hto, hbody]; decide⟩
  obtain ⟨hbranch, -, -, htrust⟩ :=
    clause_chain_ends_at_own_end (σ := Console.Buffered) clauseChains 0
  obtain ⟨-, hretest, -, -⟩ := clause_chain_ends_at_own_end (σ := Console.Buffered) clauseChains 8
  obtain ⟨-, -, hcount, -⟩ := clause_chain_ends_at_own_end (σ := Console.Buffered) clauseChains 12
  refine ⟨hif, hwhile, hfor, hhead, ?_, ?_, ?_, htrust _ _ _ _ _ .refl _ List.mem_cons_self rfl⟩
  · obtain ⟨result, hsettles, hlooks, htiles⟩ := hbranch hif
    have hcomputed : answerOf ((Statement.clauses clauseChains 0 #[]).run clauseWorld) =
        some (.ok (#[⟨some 1, ⟨2, 5⟩⟩, ⟨some 6, ⟨6, 6⟩⟩, ⟨none, ⟨7, 7⟩⟩], 7)) := by decide +kernel
    rw [hlooks.answerOf_eq htrusts] at hcomputed
    rcases result with e | ⟨places, stop⟩
    · cases hcomputed
    · obtain ⟨hclauses, rfl⟩ : Statement.clausesFrom clauseChains 0 places stop =
          [⟨some 1, ⟨2, 5⟩⟩, ⟨some 6, ⟨6, 6⟩⟩, ⟨none, ⟨7, 7⟩⟩] ∧ stop = 7 := by
        simpa [Except.map] using hcomputed
      have htiles := htiles places 7 rfl
      rw [hclauses] at htiles
      exact ⟨places, hsettles, htiles⟩
  · obtain ⟨result, hsettles, hloop⟩ := hretest hwhile
    obtain ⟨hlooks, htiles⟩ := hloop 2
    have hcomputed : (answerOf ((Statement.whileLoop clauseChains 8 2).run clauseWorld)).map
        (Except.map Flow.loop?) = some (.ok (some (⟨2, ⟨9, 10⟩, some ⟨11, 11⟩⟩, 12))) := by
          decide +kernel
    rw [hlooks.answerOf_eq htrusts] at hcomputed
    rcases result with e | ⟨places, stop⟩
    · cases hcomputed
    · obtain ⟨hblocks, rfl⟩ : Loop.ofForm 2 (Expression.endFrom clauseChains.tokens 9)
          (Statement.formOf (places, stop)) = ⟨2, ⟨9, 10⟩, some ⟨11, 11⟩⟩ ∧ stop = 11 := by
        simpa [Except.map, Flow.loop?] using hcomputed
      have htiles := htiles places 11 rfl
      simp only [Nat.reduceAdd, hblocks] at htiles
      exact ⟨places, hsettles, htiles⟩
  · obtain ⟨result, hsettles, hlooks, -⟩ := hcount "i" hfor hhead
    have hcomputed : answerOf ((Statement.forForm clauseChains 12).run clauseWorld) =
        some (.error ⟨.structural (.clauseAfterElse "elif"), ⟨3, 21⟩⟩) := by decide +kernel
    rw [hlooks.answerOf_eq htrusts] at hcomputed
    rcases result with e | chain
    · obtain rfl : e = _ := Except.error.inj (Option.some.inj hcomputed)
      exact hsettles
    · cases hcomputed

end TokenScript
