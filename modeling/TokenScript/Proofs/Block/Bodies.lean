import TokenScript.Proofs.Block.Clauses

/-!
# Where bodies stop

A machine executes the statements of a body one after another until it comes to the place where the
body stops.  No statement but one goes on behind that place: a block that opens in the body has its
`end` there, since the scan that found the stop counted it, and expressions end at every reserved
word.

The exception is the definition of a function.  Its `leave` is found by a scan that does not count
the blocks that `end` closes, and these are found by scans that do not count functions.  So a
definition may start in a body and end behind its stop; the machine then goes on behind the stop,
and what lies between the stop and the `leave` is executed as well, although it belongs to a
function that nobody called.

* `Code.Body`: the bodies of the code; `Code.Sealed`, `Code.Body.sealed`: what is in a body ends in
  it.
* `Code.Overruns`: a definition that starts in a body and ends behind it.
* `Code.Stays`, `Flow.Contained`, `contained_execute`: where a statement goes on.
* `Frame.Contained`, `Machine.contained_step`, `Machine.contained_of_reaches`: where the bodies of a
  run are.
* `bodies_stop_at_their_close`, `body_runs_past_its_close`.
-/

namespace TokenScript

open TokenScript.Action

variable {σ α : Type} {code : Code} {start stop place next : Nat}

/-! ## Bodies -/

/-- The bodies of the code: all of it, the clauses of `if`, and the bodies and `else` clauses of
loops. -/
inductive Code.Body (code : Code) : Extent → Prop
  | whole : code.Body ⟨0, code.size⟩
  | clause {start stop : Nat} {places : List Nat} {body : Extent}
      (word : code.wordAt? start = some .ifClause)
      (chain : code.ChainsTo start Code.clauseWords (.ok (places, stop)))
      (mem : body ∈ (Statement.clausesFrom code start places stop).map Statement.Clause.body) :
      code.Body body
  | whileLoop {start stop line : Nat} {places : List Nat} {body : Extent}
      (word : code.wordAt? start = some .whileLoop)
      (chain : code.ChainsTo start [.elseClause] (.ok (places, stop)))
      (mem : body ∈ (Loop.ofForm line (Expression.endFrom code.tokens (start + 1))
        (Statement.formOf (places, stop))).blocks) : code.Body body
  | forLoop {start stop line : Nat} {name : String} {places : List Nat} {body : Extent}
      (word : code.wordAt? start = some .forLoop) (head : code.ForHead start name)
      (chain : code.ChainsTo start [.elseClause] (.ok (places, stop)))
      (mem :
        body ∈ (Loop.ofForm line (code.forBody start) (Statement.formOf (places, stop))).blocks) :
      code.Body body

/-- The words at which clauses end. -/
def Code.closeWords : List Keyword := Code.clauseWords ++ [.endBlock]

/-- A range that stops at a word that ends a clause, or at the end of the code.  The blocks that
open in it end in it. -/
structure Code.Sealed (code : Code) (body : Extent) : Prop where
  start_le : body.start ≤ body.stop
  stop_le : body.stop ≤ code.size
  word : ∀ t, code.tokens[body.stop]? = some t → ∃ word ∈ Code.closeWords, t.keyword? = some word
  ends : ∀ place close, body.start ≤ place → place < body.stop →
    (∃ word ∈ BlockPolicy.endOpeners, code.wordAt? place = some word) →
    code.Meets place close .endBlock → close < body.stop

/-- Each of the blocks lies behind the word at `place`, and ends at one of the words. -/
theorem Tiles.of_mem {places : List Nat} {bodies : List Extent} (h : Tiles place places stop bodies)
    {body : Extent} (hmem : body ∈ bodies) :
    place < body.start ∧ body.start ≤ body.stop ∧ (body.stop ∈ places ∨ body.stop = stop) := by
  induction h with
  | last lt le ends =>
    obtain rfl := List.mem_singleton.1 hmem
    exact ⟨lt, le, Or.inr ends⟩
  | @cons place next stop places first bodies lt le ends rest ih =>
    rcases List.mem_cons.1 hmem with rfl | hmem
    · exact ⟨lt, le, Or.inl (ends ▸ List.mem_cons_self)⟩
    · obtain ⟨hlt, hle, hstop⟩ := ih hmem
      exact ⟨by omega, hle, hstop.imp_left (List.mem_cons_of_mem next)⟩

/-- The blocks between the words of a chain are sealed. -/
theorem Code.ChainsTo.sealed {words : List Keyword} {places : List Nat} {bodies : List Extent}
    (h : code.ChainsTo start words (.ok (places, stop))) (hwords : words ⊆ Code.clauseWords)
    (htiles : Tiles start places stop bodies) {body : Extent} (hmem : body ∈ bodies) :
    code.Sealed body := by
  obtain ⟨hlt, hle, hends⟩ := htiles.of_mem hmem
  obtain ⟨word, hword, hmeets⟩ : ∃ word ∈ Code.closeWords, code.Meets start body.stop word := by
    rcases hends with hplace | heq
    · obtain ⟨word, hword, hmeets⟩ := (h.2.2.1 _).1 hplace
      exact ⟨word, List.mem_append_left _ (hwords hword), hmeets⟩
    · exact ⟨.endBlock, by decide, heq ▸ h.1⟩
  refine ⟨hle, Nat.le_of_lt (Code.lt_size_of_wordAt? hmeets.word), fun t ht => ?_, ?_⟩
  · obtain ⟨u, hu, hkeyword⟩ := Code.exists_token hmeets.word
    obtain rfl : t = u := Option.some.inj (ht.symm.trans hu)
    exact ⟨word, hword, hkeyword⟩
  · intro place close hplace hstop hopener hclose
    obtain ⟨other, hother, hlt⟩ :=
      hmeets.surface.exists_end (Nat.lt_of_lt_of_le hlt hplace) hstop hopener
    rwa [hclose.end_unique hother]

theorem Code.Body.sealed {body : Extent} (h : code.Body body) : code.Sealed body := by
  have helse : [Keyword.elseClause] ⊆ Code.clauseWords := by decide
  cases h with
  | whole =>
    refine ⟨Nat.zero_le _, Nat.le_refl _, fun t ht => ?_, fun place close _ _ _ hclose => ?_⟩
    · exact absurd (Array.getElem?_eq_some_iff.1 ht).1 (Nat.lt_irrefl _)
    · exact Code.lt_size_of_wordAt? hclose.word
  | clause hword hchain hmem => exact hchain.sealed (List.Subset.refl _) hchain.tiles_clauses hmem
  | whileLoop hword hchain hmem => exact hchain.sealed helse (hchain.tiles_while _) hmem
  | forLoop hword hhead hchain hmem => exact hchain.sealed helse (hchain.tiles_for hhead _) hmem

section

variable {body : Extent}

/-- A token that is no reserved word does not stand at the stop. -/
theorem Code.Sealed.lt_stop (h : code.Sealed body) {t : Token} (ht : code.tokens[place]? = some t)
    (hplain : t.keyword? = none) (hle : place ≤ body.stop) : place < body.stop := by
  refine Nat.lt_of_le_of_ne hle ?_
  rintro rfl
  obtain ⟨word, -, hword⟩ := h.word t ht
  rw [hplain] at hword
  cases hword

/-- An expression ends before the stop. -/
theorem Code.Sealed.endFrom_le (h : code.Sealed body) (hle : place ≤ body.stop) :
    Expression.endFrom code.tokens place ≤ body.stop := by
  rcases Nat.eq_or_lt_of_le h.stop_le with heq | hlt
  · rw [heq]
    exact Expression.endFrom_le _ _
  · have ht : code.tokens[body.stop]? = some code.tokens[body.stop] := Array.getElem?_eq_getElem hlt
    obtain ⟨word, -, hword⟩ := h.word _ ht
    have hstop : code.wordAt? body.stop = some word := by
      rw [Code.wordAt?, ht, Option.bind_some, hword]
    exact Expression.endFrom_le_of_wordAt? hstop hle

end

/-! ## Where statements go on -/

/-- The definition of a function at `place` starts in a body and ends behind it; the statement after
it is at `next`. -/
structure Code.Overruns (code : Code) (body : Extent) (place next : Nat) : Prop where
  start_le : body.start ≤ place
  lt_stop : place < body.stop
  word : code.wordAt? place = some .func
  leave : ∃ leave, code.ClosesAt place .function leave ∧ body.stop < leave ∧ next = leave + 1

/-- In whatever body the statement at `start` is executed, it goes on at `next` in that body, or it
is a definition that ends behind it. -/
def Code.Stays (code : Code) (start next : Nat) : Prop :=
  ∀ body, code.Body body → body.start ≤ start → start < body.stop →
    next ≤ body.stop ∨ code.Overruns body start next

/-- The statement at `start` goes on in its body, and what it runs first is a body. -/
def Flow.Contained (code : Code) (start : Nat) : Flow → Prop
  | .advance next => code.Stays start next
  | .enter block next => code.Body block ∧ code.Stays start next
  | .retest _ loop next => (∀ block ∈ loop.blocks, code.Body block) ∧ code.Stays start next
  | .count _ _ _ loop next => (∀ block ∈ loop.blocks, code.Body block) ∧ code.Stays start next
  | .call _ next => code.Stays start next
  | .exit => True

theorem Code.stays_succ (code : Code) (start : Nat) : code.Stays start (start + 1) :=
  fun _ _ _ hlt => Or.inl hlt

/-- A statement that consists of its word and a name. -/
theorem Code.stays_name {t : Token} {name : String} (ht : code.tokens[start + 1]? = some t)
    (hname : t.identifier? = some name) : code.Stays start (start + 2) := by
  intro body hbody _ hlt
  exact Or.inl (hbody.sealed.lt_stop ht (Token.keyword?_of_identifier? hname) hlt)

/-- A block that `end` closes. -/
theorem Code.stays_end {word : Keyword} (hword : code.wordAt? start = some word)
    (hopener : word ∈ BlockPolicy.endOpeners) (h : code.Meets start stop .endBlock) :
    code.Stays start (stop + 1) :=
  fun _ hbody hle hlt => Or.inl (hbody.sealed.ends start stop hle hlt ⟨word, hopener, hword⟩ h)

/-- The definition of a function. -/
theorem Code.stays_define {leave : Nat} (hword : code.wordAt? start = some .func)
    (hleave : code.ClosesAt start .function leave) : code.Stays start (leave + 1) := by
  intro body hbody hle hlt
  rcases Nat.lt_trichotomy leave body.stop with hin | heq | hout
  · exact Or.inl hin
  · -- no clause ends at a `leave`
    obtain ⟨close, hclose, rfl⟩ := hleave
    have hfirst := (BlockPolicy.scan_eq_some_iff (BlockPolicy.regular_of_mem_all (by decide))).1
      (BlockPolicy.close_eq_ok_iff.1 hclose)
    have hkeyword : close.keyword = .leave := List.mem_singleton.1 hfirst.stop
    obtain ⟨t, ht, hstop⟩ := Option.bind_eq_some_iff.1 hfirst.word
    obtain ⟨word, hclose, hother⟩ := hbody.sealed.word t (heq ▸ ht)
    rw [hstop, hkeyword] at hother
    rw [← Option.some.inj hother] at hclose
    exact absurd hclose (by decide)
  · exact Or.inr ⟨hle, hlt, hword, leave, hleave, hout, rfl⟩

/-! ## The chains of forms -/

/-- What an action that looks at the code returns is its answer. -/
theorem Looks.returns {x : Action σ α} {answer : Except Error α} (h : Looks code x answer)
    {world final : World σ} {u : α} (hscans : world.closes = none)
    (hrun : x.run world = .ok u final) : answer = .ok u := by
  obtain ⟨other, -, hanswer⟩ := h world (World.trusts_of_scans hscans code)
  rw [hanswer] at hrun
  cases answer with
  | error e => cases hrun
  | ok v =>
    cases hrun
    rfl

section

variable {world middle : World σ}

/-- The clauses that `if` has found are those of a chain. -/
theorem exists_chain_of_clauses {found : Array Statement.Clause}
    (hword : code.wordAt? start = some .ifClause) (hscans : world.closes = none)
    (hrun : (Statement.clauses code start #[]).run world = .ok (found, stop) middle) :
    ∃ places, code.ChainsTo start Code.clauseWords (.ok (places, stop)) ∧
      found.toList = Statement.clausesFrom code start places stop := by
  obtain ⟨result, hchain, hlooks⟩ := exists_chain_clauses (σ := σ) hword (Or.inl rfl) #[]
  have hanswer := hlooks.returns hscans hrun
  rcases result with e | ⟨places, stop⟩
  · cases hanswer
  · cases hanswer
    exact ⟨places, hchain, by simp⟩

/-- The form of a loop is that of a chain. -/
theorem exists_chain_of_loopForm {word : Keyword} {form : Nat × Option Extent × Nat}
    (hword : code.wordAt? start = some word) (hloop : word = .whileLoop ∨ word = .forLoop)
    (hscans : world.closes = none)
    (hrun : (Statement.loopForm code start).run world = .ok form middle) :
    ∃ places stop, code.ChainsTo start [.elseClause] (.ok (places, stop)) ∧
      form = Statement.formOf (places, stop) := by
  obtain ⟨result, hchain, hlooks⟩ := exists_chain_loop (σ := σ) hword hloop
  have hanswer := hlooks.returns hscans hrun
  rcases result with e | ⟨places, stop⟩
  · cases hanswer
  · cases hanswer
    exact ⟨places, stop, hchain, rfl⟩

/-- So is the form of `for`, behind its name. -/
theorem exists_chain_of_forForm {form : String × Nat × Option Extent × Nat}
    (hword : code.wordAt? start = some .forLoop) (hhead : code.ForHead start form.1)
    (hscans : world.closes = none)
    (hrun : (Statement.forForm code start).run world = .ok form middle) :
    ∃ places stop, code.ChainsTo start [.elseClause] (.ok (places, stop)) ∧
      form.2 = Statement.formOf (places, stop) := by
  obtain ⟨result, hchain, hlooks⟩ := exists_chain_loop (σ := σ) hword (Or.inr rfl)
  have hanswer := (looks_forForm hhead hlooks).returns hscans hrun
  rcases result with e | ⟨places, stop⟩
  · cases hanswer
  · exact ⟨places, stop, hchain, (congrArg Prod.snd (Except.ok.inj hanswer)).symm⟩

end

/-! ## Every statement -/

theorem Code.Follows.stays (h : code.Follows start next) : code.Stays start next := by
  cases h with
  | token => exact code.stays_succ start
  | name ht hname => exact Code.stays_name ht hname
  | printed => exact fun body hbody _ hlt => Or.inl (hbody.sealed.endFrom_le hlt)
  | @assigned t ht hsign =>
    have hplain : t.keyword? = none := by simp only [Token.keyword?, hsign]
    refine fun body hbody _ hlt => Or.inl (hbody.sealed.endFrom_le ?_)
    exact hbody.sealed.lt_stop ht hplain hlt

theorem Statement.Leads.contained {world : World σ} {flow : Flow} (hscans : world.closes = none)
    (h : Statement.Leads (world.closes = none) code start world flow) :
    flow.Contained code start := by
  cases h with
  | next hnext => exact hnext.stays
  | call hnext => exact hnext.stays
  | exit => trivial
  | define hword hclose => exact Code.stays_define hword (hclose hscans)
  | skip hword hrun =>
    obtain ⟨places, hchain, -⟩ := exists_chain_of_clauses hword hscans hrun
    exact Code.stays_end hword (by decide) hchain.1
  | clause hword hrun hmem =>
    obtain ⟨places, hchain, hfound⟩ := exists_chain_of_clauses hword hscans hrun
    refine ⟨.clause hword hchain (List.mem_map_of_mem ?_),
      Code.stays_end hword (by decide) hchain.1⟩
    exact hfound ▸ Array.mem_toList_iff.2 hmem
  | retest line hword hrun =>
    obtain ⟨places, stop, hchain, rfl⟩ := exists_chain_of_loopForm hword (Or.inl rfl) hscans hrun
    exact ⟨fun block hblock => .whileLoop hword hchain hblock,
      Code.stays_end hword (by decide) hchain.1⟩
  | pass hword hhead hrun =>
    obtain ⟨places, stop, hchain, hform⟩ := exists_chain_of_forForm hword hhead hscans hrun
    rw [hform]
    exact Code.stays_end hword (by decide) hchain.1
  | count line low high hword hhead hrun =>
    obtain ⟨places, stop, hchain, hform⟩ := exists_chain_of_forForm hword hhead hscans hrun
    rw [hform]
    exact ⟨fun block hblock => .forLoop hword hhead hchain hblock,
      Code.stays_end hword (by decide) hchain.1⟩

variable [Console σ]

/-- Every statement goes on in its body, or is a definition that ends behind it. -/
theorem contained_execute (hstart : start < code.size) :
    Returns (σ := σ) (Statement.execute code start) (Flow.Contained code start) :=
  fun _ _ _ hscans hrun => (leads_execute hstart hscans hrun).contained hscans

/-! ## Moments of runs -/

/-- The frame executes the statements of bodies.  A block that is under way is in its body or at its
stop, unless a definition has ended behind it. -/
def Frame.Contained : Frame → Prop
  | .block code cursor stop =>
    ∃ start, code.Body ⟨start, stop⟩ ∧ start ≤ cursor ∧
      (cursor ≤ stop ∨ ∃ place, code.Overruns ⟨start, stop⟩ place cursor)
  | .retest code _ loop _ => ∀ block ∈ loop.blocks, code.Body block
  | .count code _ _ _ _ loop => ∀ block ∈ loop.blocks, code.Body block
  | .call => True

theorem Code.Body.contained {body : Extent} (h : code.Body body) :
    (Machine.blockFrame code body).Contained :=
  ⟨body.start, h, Nat.le_refl _, Or.inl h.sealed.start_le⟩

namespace Machine

variable {rest : List Frame}

omit [Console σ] in
theorem contained_elseFrames {loop : Loop} (h : ∀ block ∈ loop.blocks, code.Body block) :
    ∀ frame ∈ elseFrames code loop, frame.Contained := by
  intro frame hmem
  obtain ⟨block, hblock, rfl⟩ := Option.map_eq_some_iff.1 (Option.mem_toList.1 hmem)
  have hotherwise : block ∈ loop.blocks := by simp [Loop.blocks, hblock]
  exact (h block hotherwise).contained

omit [Console σ] in
/-- Going on after a statement. -/
theorem contained_follow {cursor : Nat} {flow : Flow} {world : World σ} {next : Machine σ}
    (hforward : flow.Forward code cursor) (hflow : flow.Contained code cursor)
    (hframe : (Frame.block code cursor stop).Contained) (hlt : cursor < stop)
    (hrest : ∀ frame ∈ rest, frame.Contained)
    (h : follow code stop flow rest world = .running next) :
    ∀ frame ∈ next.frames, frame.Contained := by
  obtain ⟨start, hbody, hle, -⟩ := hframe
  have hblock : ∀ place, cursor < place → code.Stays cursor place →
      ∀ frame ∈ .block code place stop :: rest, frame.Contained := by
    intro place hplace hstays
    refine List.forall_mem_cons.2 ⟨⟨start, hbody, by omega, ?_⟩, hrest⟩
    exact (hstays _ hbody hle hlt).imp_right fun hover => ⟨cursor, hover⟩
  cases flow with
  | advance place =>
    obtain rfl := Status.running.inj h
    exact hblock place hforward.1 hflow
  | enter extent place =>
    obtain rfl := Status.running.inj h
    exact List.forall_mem_cons.2 ⟨hflow.1.contained, hblock place hforward.2.1 hflow.2⟩
  | retest condition loop place =>
    obtain rfl := Status.running.inj h
    obtain ⟨-, -, -, hplace, -⟩ := hforward
    exact List.forall_mem_cons.2 ⟨hflow.1, hblock place hplace hflow.2⟩
  | count name first last loop place =>
    obtain rfl := Status.running.inj h
    exact List.forall_mem_cons.2 ⟨hflow.1, hblock place hforward.2.1 hflow.2⟩
  | call body place =>
    obtain rfl := Status.running.inj h
    exact List.forall_mem_cons.2 ⟨Code.Body.whole.contained,
      List.forall_mem_cons.2 ⟨trivial, hblock place hforward.1 hflow⟩⟩
  | exit => cases h

/-- In a world that scans for every close, a step keeps all frames contained. -/
theorem contained_step {machine next : Machine σ} (hscans : machine.world.closes = none)
    (hcontained : ∀ frame ∈ machine.frames, frame.Contained)
    (hstep : machine.step = .running next) :
    ∀ frame ∈ next.frames, frame.Contained := by
  obtain ⟨frames, world⟩ := machine
  cases frames with
  | nil => cases hstep
  | cons frame rest =>
    obtain ⟨hframe, hrest⟩ := List.forall_mem_cons.1 hcontained
    have happend : ∀ extra : List Frame, (∀ frame ∈ extra, frame.Contained) →
        ∀ frame ∈ extra ++ rest, frame.Contained := fun extra hextra frame hmem =>
      (List.mem_append.1 hmem).elim (hextra frame) (hrest frame)
    cases frame with
    | call =>
      obtain rfl := Status.running.inj hstep
      exact hrest
    | block code cursor stop =>
      by_cases hexecutes : cursor < stop ∧ cursor < code.size
      · rw [step_block hexecutes] at hstep
        cases hexecute : (Statement.execute code cursor).run world with
        | error abort final =>
          rw [hexecute] at hstep
          cases hstep
        | ok flow final =>
          rw [hexecute] at hstep
          have hforward := returns_execute hexecutes.2 world flow final hscans hexecute
          have hflow := contained_execute hexecutes.2 world flow final hscans hexecute
          exact contained_follow hforward hflow hframe hexecutes.1 hrest hstep
      · simp only [step, if_neg hexecutes] at hstep
        obtain rfl := Status.running.inj hstep
        exact hrest
    | retest code condition loop rounds =>
      simp only [step] at hstep
      split at hstep
      · cases hstep
      · split at hstep
        · obtain rfl := Status.running.inj hstep
          exact List.forall_mem_cons.2 ⟨(hframe _ List.mem_cons_self).contained,
            List.forall_mem_cons.2 ⟨hframe, hrest⟩⟩
        · obtain rfl := Status.running.inj hstep
          exact happend _ (contained_elseFrames hframe)
    | count code name first last place loop =>
      simp only [step] at hstep
      split at hstep
      · obtain rfl := Status.running.inj hstep
        exact List.forall_mem_cons.2 ⟨(hframe _ List.mem_cons_self).contained,
          List.forall_mem_cons.2 ⟨hframe, hrest⟩⟩
      · obtain rfl := Status.running.inj hstep
        exact happend _ (contained_elseFrames hframe)

theorem contained_of_reaches (machine later : Machine σ) (hscans : machine.world.closes = none)
    (hcontained : ∀ frame ∈ machine.frames, frame.Contained) (h : Reaches machine later) :
    ∀ frame ∈ later.frames, frame.Contained := by
  induction h with
  | refl => exact hcontained
  | tail hreaches hlast ih => exact contained_step (scans_of_reaches hreaches hscans) ih hlast

end Machine

/-- At every moment of a run all frames are contained. -/
theorem Context.contained_of_reaches {context : Context} {console : σ} {journal : Journal}
    {tokens : Array Token} {later : Machine σ}
    (h : (context.machine console journal tokens).Reaches later) :
    ∀ frame ∈ later.frames, frame.Contained := by
  obtain ⟨plain, hplain, -⟩ :=
    Machine.exists_reaches_alike (context.alike_start console _ tokens _) h
  have hstart := (Code.Body.whole : (Code.program tokens).Body _).contained
  exact Machine.contained_of_reaches _ ⟨later.frames, plain⟩ rfl
    (List.forall_mem_singleton.2 hstart) hplain

/-! ## A definition that ends behind its body -/

namespace Machine

/-- The machine after so many steps, if it runs that long. -/
def after : Nat → Machine σ → Option (Machine σ)
  | 0, machine => some machine
  | steps + 1, machine =>
    match machine.step with
    | .running next => after steps next
    | .halted _ _ => none

/-- A run that remembers closes comes by the frames of the run that scans for every close. -/
theorem exists_reaches_of_after {steps : Nat} {frames : List Frame} {world plain : World σ}
    {other : Machine σ} (h : Alike frames world plain)
    (hafter : after steps ⟨frames, plain⟩ = some other) :
    ∃ later, Reaches ⟨frames, world⟩ later ∧ later.frames = other.frames := by
  induction steps generalizing frames world plain with
  | zero =>
    obtain rfl := Option.some.inj hafter
    exact ⟨⟨frames, world⟩, .refl, rfl⟩
  | succ steps ih =>
    rw [after] at hafter
    rcases (step_alike h).cases with ⟨_, _, _, hfirst, hsecond, halike⟩ | ⟨_, _, _, -, hsecond, -⟩
    · rw [hsecond] at hafter
      obtain ⟨later, hreaches, hlater⟩ := ih halike hafter
      exact ⟨later, .head hfirst hreaches, hlater⟩
    · rw [hsecond] at hafter
      cases hafter

/-- The place and the stop of the block that is executed. -/
def cursor? (machine : Machine σ) : Option (Nat × Nat) :=
  match machine.frames with
  | .block _ cursor stop :: _ => some (cursor, stop)
  | _ => none

omit [Console σ] in
theorem exists_block_of_cursor? {machine : Machine σ} {cursor stop : Nat}
    (h : machine.cursor? = some (cursor, stop)) :
    ∃ code rest, machine.frames = .block code cursor stop :: rest := by
  unfold cursor? at h
  split at h
  · next hframes =>
    obtain ⟨rfl, rfl⟩ := Prod.mk.inj (Option.some.inj h)
    exact ⟨_, _, hframes⟩
  · cases h

end Machine

/-- A function is defined in the clause of `if`, and the `end` of the `if` lies in the body of the
function. -/
def wovenSource : String := "if 1\nfunc f\nend\nprint 1\nleave"

/-- The clause of the `if` stops at 6, and its block is finished at 12. -/
theorem exists_reaches_woven :
    ∃ tokens, tokenize wovenSource = .ok tokens ∧ ∃ (later : Machine Console.Buffered) (code : Code)
      (rest : List Frame), ((Context.fresh 1).machine ⟨[], []⟩ .silent tokens).Reaches later ∧
        later.frames = .block code 12 6 :: rest := by
  have hcomputed : (tokenize wovenSource).toOption.bind (fun tokens =>
      (Machine.after 3 ⟨[Machine.blockFrame (.program tokens) ⟨0, tokens.size⟩],
        { (Context.fresh 1).world (⟨[], []⟩ : Console.Buffered) .silent with closes := none }⟩).bind
        Machine.cursor?) = some (12, 6) := by decide +kernel
  obtain ⟨tokens, htokens, hcursor⟩ := Option.bind_eq_some_iff.1 hcomputed
  obtain ⟨other, hafter, hcursor⟩ := Option.bind_eq_some_iff.1 hcursor
  obtain ⟨code, rest, hframes⟩ := Machine.exists_block_of_cursor? hcursor
  obtain ⟨later, hreaches, hlater⟩ :=
    Machine.exists_reaches_of_after ((Context.fresh 1).alike_start _ _ tokens _) hafter
  refine ⟨tokens, ?_, later, code, rest, hreaches, hlater.trans hframes⟩
  cases htokenize : tokenize wovenSource with
  | error e =>
    rw [htokenize] at htokens
    cases htokens
  | ok found =>
    rw [htokenize] at htokens
    exact congrArg Except.ok (Option.some.inj htokens)

/-! ## The stops of bodies -/

/-- At every moment of every run, the blocks under way are bodies of the code, and each is in its
body or at its stop, unless it is finished and a definition has ended behind it.  So a body all of
whose definitions end in it stops at its close. -/
theorem bodies_stop_at_their_close (context : Context) (console : σ) (journal : Journal)
    (tokens : Array Token) {later : Machine σ}
    (hreaches : (context.machine console journal tokens).Reaches later) {code : Code}
    {cursor stop : Nat} (hframe : .block code cursor stop ∈ later.frames) :
    ∃ start, code.Body ⟨start, stop⟩ ∧ start ≤ cursor ∧
      (cursor ≤ stop ∨ ∃ place, code.Overruns ⟨start, stop⟩ place cursor) ∧
      ((∀ place leave, start ≤ place → place < stop → code.wordAt? place = some .func →
          code.ClosesAt place .function leave → leave < stop) → stop ≤ cursor → cursor = stop) := by
  obtain ⟨start, hbody, hle, hcursor⟩ := Context.contained_of_reaches hreaches _ hframe
  refine ⟨start, hbody, hle, hcursor, fun hclosed hstop => ?_⟩
  rcases hcursor with hcursor | ⟨place, hover⟩
  · exact Nat.le_antisymm hcursor hstop
  · obtain ⟨leave, hleave, hlt, -⟩ := hover.leave
    have hin := hclosed place leave hover.start_le hover.lt_stop hover.word hleave
    exact absurd hin (Nat.lt_asymm hlt)

/-- The definition in `wovenSource` ends behind the clause of the `if`. -/
theorem bodies_stop_at_their_close_woven :
    ∃ (tokens : Array Token) (later : Machine Console.Buffered) (code : Code),
      tokenize wovenSource = .ok tokens ∧
      ((Context.fresh 1).machine ⟨[], []⟩ .silent tokens).Reaches later ∧
      .block code 12 6 ∈ later.frames ∧
      ∃ start place, code.Body ⟨start, 6⟩ ∧ code.Overruns ⟨start, 6⟩ place 12 := by
  obtain ⟨tokens, htokens, later, code, rest, hreaches, hframes⟩ := exists_reaches_woven
  have hframe : .block code 12 6 ∈ later.frames := by simp [hframes]
  obtain ⟨start, hbody, -, hcursor, -⟩ := bodies_stop_at_their_close _ _ _ _ hreaches hframe
  rcases hcursor with hle | ⟨place, hover⟩
  · exact absurd hle (by decide)
  · exact ⟨tokens, later, code, htokens, hreaches, hframe, start, place, hbody, hover⟩

/-- Not every body stops at its close, since a definition may start in it and end behind it. -/
theorem body_runs_past_its_close :
    ¬∀ (source : String) (tokens : Array Token) (later : Machine Console.Buffered) (code : Code)
        (start cursor stop : Nat) (rest : List Frame), tokenize source = .ok tokens →
      ((Context.fresh 1).machine ⟨[], []⟩ .silent tokens).Reaches later →
      later.frames = .block code cursor stop :: rest → code.Body ⟨start, stop⟩ → stop ≤ cursor →
      cursor = stop := by
  intro hclaim
  obtain ⟨tokens, htokens, later, code, rest, hreaches, hframes⟩ := exists_reaches_woven
  obtain ⟨start, hbody, -, -⟩ :=
    Context.contained_of_reaches hreaches (.block code 12 6) (by simp [hframes])
  have hstop :=
    hclaim wovenSource tokens later code start 12 6 rest htokens hreaches hframes hbody (by decide)
  exact absurd hstop (by decide)

end TokenScript
