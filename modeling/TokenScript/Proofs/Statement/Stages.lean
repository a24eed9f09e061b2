import TokenScript.Proofs.Expression.Names
import TokenScript.Proofs.Statement.Parts

/-!
# The two stages of a statement

A statement is executed in two stages.  First it *inspects* its form: it reads tokens and finds
closes, and may be refused.  Then it *acts*: it evaluates expressions, notes events, gives variables
values, stores a body, and talks to the console, and no form is a reason to abandon it any more.  A
statement that calls a function looks the function up instead, and then starts the call or does
without.

This file says so once, for every statement, and it says so of all worlds at the same time: what a
statement does is put together in the same way wherever it is executed.  Whatever holds of all
statements then follows by induction on how an action is put together, with one case for each kind
of step, and without a look at a single statement.  That is true of what one execution does to its
world, and of two executions side by side.

Code is read from its tokens, but closes are remembered under its address.  So a *site* is where
code is executed, a kind of console and an address, and a *routine* is an action for every site.

* `Site`, `Routine`: actions that do the same wherever they are executed.
* `Inspects`, `Acts`: routines that are put together of the steps of the first stage, and of the
  second.
* `Staged`: the check of a statement and its execution.
* `Statement.Leads`: where a statement goes on, in terms of its form.
* `staged_execute`: every statement.
-/

namespace TokenScript

open TokenScript.Action

/-! ## Routines -/

/-- Where code is executed: its address, and the consoles that are talked to. -/
structure Site where
  {σ : Type}
  [console : Console σ]
  address : Nat

attribute [instance] Site.console

/-- The tokens of the code at the address of the site. -/
def Site.place (site : Site) (code : Code) : Code := ⟨site.address, code.tokens⟩

@[simp] theorem Site.tokens_place (site : Site) (code : Code) :
    (site.place code).tokens = code.tokens := rfl

@[simp] theorem Site.size_place (site : Site) (code : Code) : (site.place code).size = code.size :=
  rfl

/-- An action for every site. -/
abbrev Routine (α : Type) := (site : Site) → Action site.σ α

/-- A condition that comes to the same at every site. -/
theorem Routine.ifThen {α : Type} {H : Routine α → Prop} {q : Prop} {p : Site → Prop}
    [∀ site, Decidable (p site)] {x y : Routine α} (hiff : ∀ site, p site ↔ q) (hx : q → H x)
    (hy : ¬q → H y) : H fun site => if p site then x site else y site := by
  by_cases hq : q
  · have heq : (fun site => if p site then x site else y site) = x :=
      funext fun site => if_pos ((hiff site).2 hq)
    rw [heq]
    exact hx hq
  · have heq : (fun site => if p site then x site else y site) = y :=
      funext fun site => if_neg fun hp => hq ((hiff site).1 hp)
    rw [heq]
    exact hy hq

/-- The routine is put together of steps that look at the code and find closes.  `P` is what it says
of its results.  If all closes are found by scans, it is no fault. -/
inductive Inspects (scans : Prop) (code : Code) : {α : Type} → Routine α → (α → Prop) → Prop
  | done {α : Type} {u : α} {P : α → Prop} : P u → Inspects scans code (fun _ => pure u) P
  | andThen {α β : Type} {x : Routine α} {f : α → Routine β} {P : α → Prop} {Q : β → Prop} :
    Inspects scans code x P → (∀ u, P u → Inspects scans code (f u) Q) →
      Inspects scans code (fun site => x site >>= fun u => f u site) Q
  | refused {α : Type} {P : α → Prop} (cause : StructuralCause) (span : Span) :
    Inspects scans code (fun _ => fail (.structural cause) span) P
  | fault {α : Type} {P : α → Prop} : ¬scans → Inspects scans code (fun _ => throw .fault) P
  | closeOf {start : Nat} {policy : BlockPolicy} : code.policyAt? start = some policy →
    Inspects scans code (fun site => closeOf (site.place code) start policy) fun close =>
      scans → code.ClosesAt start policy close

/-- Less is said of the results. -/
theorem Inspects.mono {scans : Prop} {code : Code} {α : Type} {x : Routine α} {P Q : α → Prop}
    (h : Inspects scans code x P) (himp : ∀ u, P u → Q u) : Inspects scans code x Q := by
  have hbind := h.andThen fun u hu => Inspects.done (himp u hu)
  simpa only [bind_pure] using hbind

/-- The routine is put together of steps that change the world or talk to the console. -/
inductive Acts (scans : Prop) (code : Code) : {α : Type} → Routine α → (α → Prop) → Prop
  | done {α : Type} {u : α} {P : α → Prop} : P u → Acts scans code (fun _ => pure u) P
  | andThen {α β : Type} {x : Routine α} {f : α → Routine β} {P : α → Prop} {Q : β → Prop} :
    Acts scans code x P → (∀ u, P u → Acts scans code (f u) Q) →
      Acts scans code (fun site => x site >>= fun u => f u site) Q
  | fault {α : Type} {P : α → Prop} : ¬scans → Acts scans code (fun _ => throw .fault) P
  | note {event : Event} : event.isMatch = false →
    Acts scans code (fun _ => note event) fun _ => True
  | assign {name : String} (value : Value) : name ∈ namesIn code.tokens →
    Acts scans code (fun _ => changeContext fun context => context.assign name value) fun _ => True
  | define {name : String} (start stop : Nat) : name ∈ namesIn code.tokens →
    Acts scans code (fun _ => defineBody name (code.tokens.extract start stop)) fun _ => True
  | readLine (prompt : String) : Acts scans code (fun _ => readLine prompt) fun _ => True
  | writeLine (line : String) : Acts scans code (fun _ => writeLine line) fun _ => True
  | evaluate (start : Nat) :
    Acts scans code (fun site => evaluate (site.place code) start) fun _ => True

/-- Less is said of the results. -/
theorem Acts.mono {scans : Prop} {code : Code} {α : Type} {x : Routine α} {P Q : α → Prop}
    (h : Acts scans code x P) (himp : ∀ u, P u → Q u) : Acts scans code x Q := by
  have hbind := h.andThen fun u hu => Acts.done (himp u hu)
  simpa only [bind_pure] using hbind

/-! ## Where statements go on -/

/-- What is known of a flow that starts no call: a loop counts with a name of the code, and all
places that are named lie ahead if all closes are found by scans. -/
structure Flow.Own (scans : Prop) (code : Code) (start : Nat) (flow : Flow) : Prop where
  plain : flow.Plain
  counter : ∀ name first last loop next, flow = .count name first last loop next →
    name ∈ namesIn code.tokens
  forward : scans → flow.Forward code start

/-- Where the statement at an index can go on: behind it if it has no blocks, and otherwise as its
form says that it has in this world. -/
inductive Statement.Leads {σ : Type} (scans : Prop) (code : Code) (start : Nat) (world : World σ) :
    Flow → Prop
  | next {next : Nat} : code.Follows start next → Leads scans code start world (.advance next)
  | call {body : Code} {next : Nat} : code.Follows start next →
    Leads scans code start world (.call body next)
  | exit : Leads scans code start world .exit
  | define {close : Nat} :
    code.wordAt? start = some .func → (scans → code.ClosesAt start .function close) →
      Leads scans code start world (.advance (close + 1))
  | skip {found : Array Clause} {stop : Nat} {middle : World σ} :
    code.wordAt? start = some .ifClause →
      (clauses code start #[]).run world = .ok (found, stop) middle →
      Leads scans code start world (.advance (stop + 1))
  | clause {found : Array Clause} {clause : Clause} {stop : Nat} {middle : World σ} :
    code.wordAt? start = some .ifClause →
      (clauses code start #[]).run world = .ok (found, stop) middle → clause ∈ found →
      Leads scans code start world (.enter clause.body (stop + 1))
  | retest {form : Nat × Option Extent × Nat} {middle : World σ} (line : Nat) :
    code.wordAt? start = some .whileLoop → (loopForm code start).run world = .ok form middle →
      Leads scans code start world (.retest (start + 1)
        (.ofForm line (Expression.endFrom code.tokens (start + 1)) form) (form.2.2 + 1))
  | pass {form : String × Nat × Option Extent × Nat} {middle : World σ} :
    code.wordAt? start = some .forLoop → code.ForHead start form.1 →
      (forForm code start).run world = .ok form middle →
      Leads scans code start world (.advance (form.2.2.2 + 1))
  | count {form : String × Nat × Option Extent × Nat} {middle : World σ} (line : Nat)
      (low high : Int64) :
    code.wordAt? start = some .forLoop → code.ForHead start form.1 →
      (forForm code start).run world = .ok form middle →
      Leads scans code start world
        (.count form.1 low high (.ofForm line (code.forBody start) form.2) (form.2.2.2 + 1))

/-- Calls the function with this name, or does something else if there is none. -/
def Statement.callOr {σ : Type} (named : String × Span) (next : Nat) (unknown : Action σ Unit) :
    Action σ Flow := do
  let world ← get
  match world.context.functions.get? named.1 with
  | none =>
    unknown
    pure (.advance next)
  | some _ =>
    let body ← invoke named.1 named.2
    pure (.call body next)

/-- A name that is not given a value is called, or skipped. -/
theorem Statement.named_eq_callOr {σ : Type} [Console σ] {code : Code} {start : Nat}
    (h : ((code.tokens[start + 1]?).any fun t => t.kind = .assignment) ≠ true) (name : String)
    (span : Span) :
    named (σ := σ) code start name span =
      callOr (name, span) (start + 1) (note (.nameSkipped name)) := by
  rw [named, if_neg h, callOr]
  congr 1
  funext world
  cases world.context.functions.get? name <;> rfl

/-- The check of a statement and its execution are put together so.  A form is looked at, which is
all that the check does.  Then the statement acts, or it looks a function up. -/
inductive Staged (scans : Prop) (code : Code) (start : Nat) : Routine Unit → Routine Flow → Prop
  | plain {α : Type} {form : Routine α} {rest : α → Routine Flow} {P : α → Prop}
      {Q : α → Flow → Prop} :
    Inspects scans code form P → (∀ u, P u → Acts scans code (rest u) (Q u)) →
      (∀ u flow, P u → Q u flow → flow.Own scans code start) →
      (∀ (site : Site) (world middle : World site.σ) u flow, (form site).run world = .ok u middle →
        P u → Q u flow → Statement.Leads scans (site.place code) start world flow) →
      Staged scans code start (fun site => form site >>= fun _ => pure ()) fun site =>
        form site >>= fun u => rest u site
  | call {named : String × Span} {unknown : Routine Unit} {next : Nat} :
    code.call? start = some named → code.Follows start next →
      Acts scans code unknown (fun _ => True) →
      Staged scans code start (fun _ => pure ()) fun site =>
        Statement.callOr named next (unknown site)

/-! ## Forms are inspected -/

section

variable {scans : Prop} {code : Code} {start : Nat}

@[simp] theorem Statement.lastSpan_place (site : Site) (code : Code) :
    lastSpan (site.place code) = lastSpan code := rfl

theorem Code.exists_of_name? {index : Nat} {named : String × Span}
    (h : code.name? index = some named) :
    ∃ t, code.tokens[index]? = some t ∧ t.identifier? = some named.1 ∧ t.span = named.2 := by
  obtain ⟨t, ht, hmap⟩ := Option.bind_eq_some_iff.1 h
  obtain ⟨name, hname, rfl⟩ := Option.map_eq_some_iff.1 hmap
  exact ⟨t, ht, hname, rfl⟩

theorem Code.mem_namesIn_of_name? {index : Nat} {named : String × Span}
    (h : code.name? index = some named) : named.1 ∈ namesIn code.tokens := by
  obtain ⟨t, ht, hname, -⟩ := Code.exists_of_name? h
  exact mem_namesIn ht hname

theorem Code.follows_of_name? {named : String × Span} (h : code.name? (start + 1) = some named) :
    code.Follows start (start + 2) := by
  obtain ⟨t, ht, hname, -⟩ := Code.exists_of_name? h
  exact .name ht hname

/-- Looking at a token is no fault if the index is inside the code. -/
theorem inspects_tokenAt {index : Nat} (h : scans → index < code.size) :
    Inspects scans code (fun site => tokenAt (site.place code) index) fun t =>
      code.tokens[index]? = some t := by
  simp only [tokenAt, Site.tokens_place]
  cases ht : code.tokens[index]? with
  | some t => exact .done rfl
  | none =>
    have hle : code.size ≤ index := Array.getElem?_eq_none_iff.1 ht
    exact .fault fun hscans => Nat.not_lt.2 hle (h hscans)

theorem inspects_refuse {α : Type} (index : Nat) (cause : Option String → StructuralCause)
    {P : α → Prop} :
    Inspects scans code (fun site => Statement.refuse (site.place code) index cause) P := by
  simp only [Statement.refuse, Site.tokens_place, Statement.lastSpan_place]
  cases code.tokens[index]? <;> exact .refused _ _

theorem inspects_expectName (index : Nat) (after : Keyword) :
    Inspects scans code (fun site => Statement.expectName (site.place code) index after)
      fun named => code.name? index = some named := by
  simp only [Statement.expectName, Site.tokens_place]
  cases ht : code.tokens[index]? with
  | none => exact inspects_refuse index _
  | some t =>
    cases hname : t.identifier? with
    | none =>
      simp only [hname]
      exact inspects_refuse index _
    | some name =>
      simp only [hname]
      exact .done (by simp only [Code.name?, ht, hname, Option.bind_some, Option.map_some])

theorem inspects_expectKeyword (index : Nat) (word : Keyword) :
    Inspects scans code (fun site => Statement.expectKeyword (site.place code) index word) fun _ =>
      code.wordAt? index = some word := by
  simp only [Statement.expectKeyword, Site.tokens_place]
  cases ht : code.tokens[index]? with
  | none => exact inspects_refuse index _
  | some t =>
    dsimp only
    split
    · next hword => exact .done (Code.wordAt?_of_isKeyword ht hword)
    · exact inspects_refuse index _

theorem inspects_expectBound (first last : Nat) (after : Keyword) :
    Inspects scans code (fun site => Statement.expectBound (site.place code) first last after)
      fun _ => last ≠ first := by
  unfold Statement.expectBound
  split
  · exact inspects_refuse first _
  · next hne => exact .done hne

theorem inspects_elseEnd (h : code.wordAt? start = some .elseClause) :
    Inspects scans code (fun site => Statement.elseEnd (site.place code) start) fun close =>
      scans → start < close ∧ close < code.size := by
  refine .andThen (.closeOf (Code.policyAt?_of_wordAt? h)) fun close hclose => ?_
  refine .andThen (inspects_tokenAt fun hscans => (hclose hscans).bounds.2) fun t _ => ?_
  split
  · exact .done fun hscans => (hclose hscans).bounds
  · exact .refused _ _

/-- The clauses of `if`, by induction on what is left of the code. -/
theorem inspects_clauses (found : Array Statement.Clause) (h : scans → start < code.size) :
    Inspects scans code (fun site => Statement.clauses (site.place code) start found) fun result =>
      scans → start ≤ result.2 ∧ result.2 < code.size ∧
        ∀ clause ∈ result.1, clause ∈ found ∨ clause.body.Behind code start := by
  induction hleft : code.size - start using Nat.strongRecOn generalizing start found with
  | ind left ih =>
    have hunfold := funext fun site : Site =>
      Statement.clauses.eq_def (σ := site.σ) (site.place code) start found
    rw [hunfold]
    refine .andThen (inspects_tokenAt h) fun t ht => ?_
    split
    · next hword =>
      have hpolicy : code.policyAt? start = some .conditional := by
        rcases Bool.or_eq_true_iff.1 hword with hif | helif
        · exact Code.policyAt?_of_isKeyword ht hif
        · exact Code.policyAt?_of_isKeyword ht helif
      refine .andThen (.closeOf hpolicy) fun close hclose => ?_
      refine Routine.ifThen (H := (Inspects scans code · _))
        (q := start < close ∧ close < code.size)
        (fun _ => Iff.rfl) (fun hbounds => ?_) fun hbounds => ?_
      · let body := Expression.endFrom code.tokens (start + 1)
        refine (ih (code.size - close) (by omega) (found.push ⟨some (start + 1), ⟨body, close⟩⟩)
          (fun _ => hbounds.2) rfl).mono ?_
        intro result hresult hscans
        obtain ⟨hle, hlt, hall⟩ := hresult hscans
        have hclause := Extent.behind_endFrom (Nat.lt_succ_self start) (h hscans) hbounds.2
        refine ⟨by omega, hlt, fun clause hmem => ?_⟩
        rcases hall clause hmem with hpushed | hbehind
        · rcases Array.mem_push.1 hpushed with hold | rfl
          · exact Or.inl hold
          · exact Or.inr hclause
        · exact Or.inr (hbehind.of_le (Nat.le_of_lt hbounds.1))
      · exact .fault fun hscans => hbounds (hclose hscans).bounds
    · split
      · next hword =>
        refine .andThen (inspects_elseEnd (Code.wordAt?_of_isKeyword ht hword))
          fun close hclose => ?_
        refine .done fun hscans => ?_
        obtain ⟨hlt, hsize⟩ := hclose hscans
        refine ⟨Nat.le_of_lt hlt, hsize, fun clause hmem => ?_⟩
        rcases Array.mem_push.1 hmem with hold | rfl
        · exact Or.inl hold
        · exact Or.inr ⟨Nat.lt_succ_self start, h hscans, hsize⟩
      · exact .done fun hscans => ⟨Nat.le_refl start, h hscans, fun _ => Or.inl⟩

theorem inspects_loopElse {close : Nat} (h : scans → close < code.size) :
    Inspects scans code (fun site => Statement.loopElse (site.place code) close) fun ending =>
      scans → close ≤ ending.2 ∧ ending.2 < code.size ∧
        ∀ extent, ending.1 = some extent → extent.Behind code close := by
  refine .andThen (inspects_tokenAt h) fun t ht => ?_
  split
  · next hword =>
    refine .andThen (inspects_elseEnd (Code.wordAt?_of_isKeyword ht hword)) fun stop hstop => ?_
    refine .done fun hscans => ⟨Nat.le_of_lt (hstop hscans).1, (hstop hscans).2, ?_⟩
    rintro extent ⟨⟩
    exact ⟨Nat.lt_succ_self close, h hscans, (hstop hscans).2⟩
  · exact .done fun hscans => ⟨Nat.le_refl close, h hscans, nofun⟩

/-- The blocks of a loop with this form lie behind its opener, if the body starts with an expression
that ends behind `place`. -/
def Statement.FormBehind (code : Code) (start : Nat) (form : Nat × Option Extent × Nat) : Prop :=
  (∀ place line, start < place → place ≤ code.size →
      (Loop.ofForm line (Expression.endFrom code.tokens place) form).Behind code start) ∧
    start < form.2.2 + 1 ∧ form.2.2 + 1 ≤ code.size

theorem inspects_loopForm (h : code.policyAt? start = some .loop) :
    Inspects scans code (fun site => Statement.loopForm (site.place code) start) fun form =>
      scans → Statement.FormBehind code start form := by
  refine .andThen (.closeOf h) fun close hclose => ?_
  refine .andThen (inspects_loopElse fun hscans => (hclose hscans).bounds.2)
    fun ending hending => ?_
  refine .done fun hscans => ?_
  obtain ⟨hlt, hsize⟩ := (hclose hscans).bounds
  obtain ⟨hle, hstop, hbehind⟩ := hending hscans
  have hnext : start < ending.2 + 1 := by omega
  refine ⟨fun place line hplace hle => ⟨Extent.behind_endFrom hplace hle hsize, ?_⟩, hnext, hstop⟩
  exact fun extent heq => (hbehind extent heq).of_le (Nat.le_of_lt hlt)

theorem inspects_forForm (h : code.policyAt? start = some .loop) :
    Inspects scans code (fun site => Statement.forForm (site.place code) start) fun form =>
      code.ForHead start form.1 ∧ (scans → Statement.FormBehind code start form.2) := by
  simp only [Statement.forForm, Site.tokens_place]
  refine .andThen (inspects_expectName _ _) fun named hname => ?_
  refine .andThen (inspects_expectKeyword _ _) fun _ hin => ?_
  refine .andThen (inspects_expectKeyword _ _) fun _ hto => ?_
  refine .andThen (inspects_expectBound _ _ _) fun _ hfirst => ?_
  refine .andThen (inspects_expectBound _ _ _) fun _ hlast => ?_
  obtain ⟨t, ht, hidentifier, -⟩ := Code.exists_of_name? hname
  have hhead : code.ForHead start named.1 := ⟨⟨t, ht, hidentifier⟩, hin, hto, hfirst, hlast⟩
  have hform : Inspects scans code (fun site => Statement.loopForm (site.place code) start >>=
      fun form => pure (named.1, form)) fun form =>
        code.ForHead start form.1 ∧ (scans → Statement.FormBehind code start form.2) :=
    .andThen (inspects_loopForm h) fun form hbehind => .done ⟨hhead, hbehind⟩
  simp only [Statement.loopForm, bind_assoc, pure_bind] at hform
  exact hform

theorem inspects_defineForm (hword : code.wordAt? start = some .func) :
    Inspects scans code (fun site => Statement.defineForm (site.place code) start) fun form =>
      form.1 ∈ namesIn code.tokens ∧
        (scans → code.ClosesAt start .function form.2 ∧ start + 2 ≤ form.2) := by
  simp only [Statement.defineForm, Site.tokens_place]
  cases ht : code.tokens[start + 1]? with
  | none =>
    refine .andThen (inspects_tokenAt fun _ => Code.lt_size_of_wordAt? hword) fun t _ => ?_
    exact .refused _ _
  | some t =>
    cases hname : t.identifier? with
    | none =>
      simp only [hname]
      exact .refused _ _
    | some name =>
      simp only [hname]
      refine .andThen (.closeOf (Code.policyAt?_of_wordAt? hword)) fun close hclose => ?_
      refine .done ⟨mem_namesIn ht hname, fun hscans => ⟨hclose hscans, ?_⟩⟩
      -- the name stands between the opener and the close
      have hne := (hclose hscans).ne_of_identifier ht hname
      have hlt := (hclose hscans).bounds.1
      change start + 2 ≤ close
      omega

/-! ## What comes behind a form -/

theorem acts_tokenAt (index : Nat) (h : scans → index < code.size) :
    Acts scans code (fun site => tokenAt (site.place code) index) fun t =>
      code.tokens[index]? = some t := by
  simp only [tokenAt, Site.tokens_place]
  cases ht : code.tokens[index]? with
  | some t => exact .done rfl
  | none =>
    have hle : code.size ≤ index := Array.getElem?_eq_none_iff.1 ht
    exact .fault fun hscans => Nat.not_lt.2 hle (h hscans)

theorem acts_advance (next : Nat) :
    Acts scans code (fun _ => pure (Flow.advance next)) fun flow => flow = .advance next :=
  .done rfl

theorem acts_report (failure : Failure) :
    Acts scans code (fun _ => report failure) fun _ => True :=
  .andThen (.note rfl) fun _ _ => .writeLine _

theorem acts_firstTaken (clauses : List Statement.Clause) :
    Acts scans code (fun site => Statement.firstTaken (site.place code) clauses) fun taken =>
      ∀ extent, taken = some extent → ∃ clause ∈ clauses, clause.body = extent := by
  induction clauses with
  | nil => exact .done nofun
  | cons clause rest ih =>
    have hhere : ∀ extent, some clause.body = some extent →
        ∃ other ∈ clause :: rest, other.body = extent := by
      rintro extent ⟨⟩
      exact ⟨clause, List.mem_cons_self, rfl⟩
    unfold Statement.firstTaken
    cases clause.condition with
    | none => exact .done hhere
    | some condition =>
      refine .andThen (.evaluate condition) fun value _ => ?_
      split
      · exact .done hhere
      · refine ih.mono fun taken htaken extent heq => ?_
        obtain ⟨other, hmem, hbody⟩ := htaken extent heq
        exact ⟨other, List.mem_cons_of_mem clause hmem, hbody⟩

theorem acts_bound (start anchor : Nat) (hsize : scans → 0 < code.size) :
    Acts scans code (fun site => Statement.bound (site.place code) start anchor) fun _ => True := by
  refine .andThen (.evaluate start) fun value _ => ?_
  cases value with
  | int n => exact .done trivial
  | nothing => exact .done trivial
  | float | text | bool =>
    have hlt : scans → min anchor (code.size - 1) < code.size := fun hscans => by
      have hpos := hsize hscans
      omega
    refine .andThen (acts_tokenAt (min anchor (code.size - 1)) hlt) fun t _ => ?_
    exact .andThen (acts_report _) fun _ _ => .done trivial

/-! ## Every statement -/

theorem Code.Follows.place {next : Nat} (h : code.Follows start next) (site : Site) :
    (site.place code).Follows start next := by
  cases h with
  | token => exact .token
  | name ht hname => exact .name ht hname
  | printed => exact .printed
  | assigned ht hsign => exact .assigned ht hsign

theorem Code.ForHead.place {name : String} (h : code.ForHead start name) (site : Site) :
    (site.place code).ForHead start name :=
  ⟨h.name, h.inWord, h.toWord, h.first, h.last⟩

theorem Flow.own_advance {next : Nat} (h : scans → start < next ∧ next ≤ code.size) :
    (Flow.advance next).Own scans code start :=
  ⟨Flow.plain_advance next, nofun, h⟩

theorem Flow.own_exit : Flow.exit.Own scans code start :=
  ⟨Flow.plain_exit, nofun, fun _ => trivial⟩

/-- A statement without a form. -/
theorem Staged.of_acts {x : Routine Flow} {Q : Flow → Prop} (h : Acts scans code x Q)
    (hown : ∀ flow, Q flow → flow.Own scans code start)
    (hleads : ∀ (site : Site) (world : World site.σ) flow, Q flow →
      Statement.Leads scans (site.place code) start world flow) :
    Staged scans code start (fun _ => pure ()) x :=
  have hform : Inspects scans code (fun _ => pure ()) fun _ : Unit => True := .done trivial
  .plain hform (fun _ _ => h) (fun _ flow _ => hown flow)
    fun site world _ _ flow _ _ => hleads site world flow

/-- A statement without a form and without blocks. -/
theorem Staged.of_next {x : Routine Flow} {next : Nat} (h : Acts scans code x (· = .advance next))
    (hstart : scans → start < code.size) (hnext : code.Follows start next) :
    Staged scans code start (fun _ => pure ()) x := by
  refine .of_acts h ?_ ?_
  · rintro _ rfl
    exact Flow.own_advance fun hscans => hnext.forward (hstart hscans)
  · rintro site world _ rfl
    exact .next (hnext.place site)

/-- A statement that only notes something. -/
theorem Staged.of_note {event : Event} (hevent : event.isMatch = false)
    (hstart : scans → start < code.size) :
    Staged scans code start (fun _ => pure ())
      fun _ => note event >>= fun _ => pure (.advance (start + 1)) :=
  .of_next (.andThen (.note hevent) fun _ _ => .done rfl) hstart .token

theorem staged_input (hstart : scans → start < code.size) :
    Staged scans code start
      (fun site => Statement.expectName (site.place code) (start + 1) .input >>= fun _ => pure ())
      fun site => Statement.input (site.place code) start := by
  refine .plain (Q := fun _ flow => flow = .advance (start + 2))
    (inspects_expectName (start + 1) .input) (fun named hname => ?_) ?_ ?_
  · refine .andThen (.readLine _) fun line _ => ?_
    refine .andThen (.note rfl) fun _ _ => ?_
    refine .andThen (.assign _ (Code.mem_namesIn_of_name? hname)) fun _ _ => ?_
    exact .done rfl
  · rintro named _ hname rfl
    exact Flow.own_advance fun hscans => (Code.follows_of_name? hname).forward (hstart hscans)
  · rintro site world middle named _ - hname rfl
    exact .next ((Code.follows_of_name? hname).place site)

theorem staged_print (hstart : scans → start < code.size) :
    Staged scans code start (fun _ => pure ()) fun site =>
      Statement.print (site.place code) start := by
  have hprint : Acts scans code (fun site => Statement.print (site.place code) start)
      fun flow => flow = .advance (Expression.endFrom code.tokens (start + 1)) := by
    refine Routine.ifThen (H := (Acts scans code · _))
      (q := Expression.endFrom code.tokens (start + 1) = start + 1) (fun _ => Iff.rfl)
      (fun hstop => ?_) fun _ => ?_
    · exact .andThen (.writeLine _) fun _ _ => .done (by rw [hstop])
    · refine .andThen (.evaluate _) fun value _ => ?_
      exact .andThen (.writeLine _) fun _ _ =>
        acts_advance (Expression.endFrom code.tokens (start + 1))
  exact .of_next hprint hstart .printed

theorem staged_named {t : Token} {name : String} (ht : code.tokens[start]? = some t)
    (hkind : t.kind = .identifier name) :
    Staged scans code start (fun _ => pure ()) fun site =>
      Statement.named (site.place code) start name t.span := by
  have hname : t.identifier? = some name := by simp only [Token.identifier?, hkind]
  by_cases hassign : (code.tokens[start + 1]?).any fun t => t.kind = .assignment
  · obtain ⟨sign, hsign, hassignment⟩ := (Option.any_eq_true _ _).1 hassign
    have hexecute : (fun site : Site => Statement.named (σ := site.σ) (site.place code) start name
        t.span) = fun site => _ := funext fun site => if_pos hassign
    rw [hexecute]
    refine .of_next ?_ (fun _ => (Array.getElem?_eq_some_iff.1 ht).1)
      (.assigned hsign (of_decide_eq_true hassignment))
    refine .andThen (.evaluate _) fun value _ => ?_
    refine .andThen (.note rfl) fun _ _ => ?_
    exact .andThen (.assign _ (mem_namesIn ht hname)) fun _ _ =>
      acts_advance (Expression.endFrom code.tokens (start + 2))
  · have hcall : code.call? start = some (name, t.span) := by
      simp only [Code.call?, ht, hkind]
      exact if_neg hassign
    have hexecute : (fun site : Site => Statement.named (σ := site.σ) (site.place code) start name
        t.span) = fun _ => Statement.callOr (name, t.span) (start + 1) (note (.nameSkipped name)) :=
      funext fun site => Statement.named_eq_callOr hassign name t.span
    rw [hexecute]
    exact .call hcall .token (.note rfl)

theorem staged_call {t : Token} (ht : code.tokens[start]? = some t)
    (hkind : t.kind = .keyword .exec) :
    Staged scans code start
      (fun site => Statement.expectName (site.place code) (start + 1) .exec >>= fun _ => pure ())
      fun site => Statement.call (site.place code) start := by
  have hcall : code.call? start = code.name? (start + 1) := by
    simp only [Code.call?, ht, hkind, Code.name?]
  cases hname : code.name? (start + 1) with
  | none =>
    have hform : Inspects scans code
        (fun site => Statement.expectName (site.place code) (start + 1) .exec) fun _ => False :=
      (inspects_expectName (start + 1) .exec).mono fun named h => by cases hname.symm.trans h
    exact .plain (Q := fun _ _ => False) hform (fun _ => False.elim) (fun _ _ => False.elim)
      fun _ _ _ _ _ _ => False.elim
  | some named =>
    have hexpect : ∀ site : Site,
        Statement.expectName (σ := site.σ) (site.place code) (start + 1) .exec = pure named :=
      fun site => expectName_of_some hname .exec
    simp only [Statement.call, hexpect, pure_bind]
    exact .call (hcall.trans hname) (Code.follows_of_name? hname)
      (acts_report ⟨.undefinedFunction named.1, named.2⟩)

theorem staged_define (hword : code.wordAt? start = some .func) :
    Staged scans code start
      (fun site => Statement.defineForm (site.place code) start >>= fun _ => pure ())
      fun site => Statement.define (site.place code) start := by
  simp only [define_eq]
  refine .plain (Q := fun form flow => start + 2 ≤ form.2 ∧ form.2 < code.size ∧
    flow = .advance (form.2 + 1)) (inspects_defineForm hword) (fun form hform => ?_) ?_ ?_
  · refine Routine.ifThen (H := (Acts scans code · _))
      (q := start + 2 ≤ form.2 ∧ form.2 < code.size)
      (fun _ => Iff.rfl) (fun hbounds => ?_) fun hbounds => .fault fun hscans => ?_
    · exact .andThen (.define (start + 2) form.2 hform.1) fun _ _ =>
        .done ⟨hbounds.1, hbounds.2, rfl⟩
    · obtain ⟨hclose, hle⟩ := hform.2 hscans
      exact hbounds ⟨hle, hclose.bounds.2⟩
  · rintro form _ - ⟨hle, hlt, rfl⟩
    exact Flow.own_advance fun _ => ⟨by omega, hlt⟩
  · rintro site world middle form _ - hform ⟨-, -, rfl⟩
    exact .define hword fun hscans => (hform.2 hscans).1

theorem staged_branch (hword : code.wordAt? start = some .ifClause) :
    Staged scans code start
      (fun site => Statement.clauses (site.place code) start #[] >>= fun _ => pure ())
      fun site => Statement.branch (site.place code) start := by
  have hstart := Code.lt_size_of_wordAt? hword
  refine .plain (Q := fun found flow => flow = .advance (found.2 + 1) ∨
    ∃ clause ∈ found.1, flow = .enter clause.body (found.2 + 1))
    (inspects_clauses #[] fun _ => hstart) (fun found _ => ?_) ?_ ?_
  · refine .andThen (acts_firstTaken found.1.toList) fun taken htaken => ?_
    cases taken with
    | none => exact .done (Or.inl rfl)
    | some extent =>
      obtain ⟨clause, hmem, rfl⟩ := htaken extent rfl
      exact .done (Or.inr ⟨clause, Array.mem_toList_iff.1 hmem, rfl⟩)
  · rintro found flow hfound (rfl | ⟨clause, hmem, rfl⟩)
    · refine Flow.own_advance fun hscans => ?_
      obtain ⟨hle, hlt, -⟩ := hfound hscans
      exact ⟨by omega, hlt⟩
    · refine ⟨nofun, nofun, fun hscans => ?_⟩
      obtain ⟨hle, hlt, hall⟩ := hfound hscans
      rcases hall clause hmem with hempty | hbehind
      · exact absurd hempty (Array.not_mem_empty clause)
      · exact ⟨hbehind, by omega, hlt⟩
  · rintro site world middle found flow hrun - (rfl | ⟨clause, hmem, rfl⟩)
    · exact .skip hword hrun
    · exact .clause hword hrun hmem

theorem staged_whileLoop {t : Token} (ht : code.tokens[start]? = some t)
    (hkeyword : t.isKeyword .whileLoop = true) (line : Nat) :
    Staged scans code start
      (fun site => Statement.loopForm (site.place code) start >>= fun _ => pure ())
      fun site => Statement.whileLoop (site.place code) start line := by
  have hword := Code.wordAt?_of_isKeyword ht hkeyword
  have hstart := Code.lt_size_of_wordAt? hword
  simp only [whileLoop_eq]
  refine .plain (Q := fun form flow => flow = .retest (start + 1)
    (.ofForm line (Expression.endFrom code.tokens (start + 1)) form) (form.2.2 + 1))
    (inspects_loopForm (Code.policyAt?_of_wordAt? hword))
    (fun form _ => .done
      (u := Flow.retest _ (.ofForm line (Expression.endFrom code.tokens (start + 1)) form) _) rfl)
    ?_ ?_
  · rintro form _ hform rfl
    refine ⟨nofun, nofun, fun hscans => ?_⟩
    obtain ⟨hbehind, hnext⟩ := hform hscans
    refine ⟨?_, hstart, hbehind (start + 1) line (Nat.lt_succ_self start) hstart, hnext⟩
    rw [ht, Option.any_some, hkeyword]
  · rintro site world middle form _ hrun - rfl
    exact .retest line hword hrun

theorem staged_forLoop (hword : code.wordAt? start = some .forLoop) (line : Nat) :
    Staged scans code start
      (fun site => Statement.forForm (site.place code) start >>= fun _ => pure ())
      fun site => Statement.forLoop (site.place code) start line := by
  have hsize : 0 < code.size := Nat.zero_lt_of_lt (Code.lt_size_of_wordAt? hword)
  simp only [forLoop_eq]
  refine .plain (Q := fun form flow => flow = .advance (form.2.2.2 + 1) ∨
    ∃ low high, flow = .count form.1 low high (.ofForm line (code.forBody start) form.2)
      (form.2.2.2 + 1))
    (inspects_forForm (Code.policyAt?_of_wordAt? hword)) (fun form _ => ?_) ?_ ?_
  · let toWord := Expression.endFrom code.tokens (start + 3)
    refine .andThen (acts_bound (start + 3) toWord fun _ => hsize) fun low _ => ?_
    cases low with
    | none => exact .done (Or.inl rfl)
    | some low =>
      refine .andThen (acts_bound (toWord + 1) (toWord + 1) fun _ => hsize) fun high _ => ?_
      cases high with
      | none => exact .done (Or.inl rfl)
      | some high =>
        exact .done (u := Flow.count _ low high (.ofForm line (code.forBody start) form.2) _)
          (Or.inr ⟨low, high, rfl⟩)
  · rintro form _ ⟨hhead, hform⟩ (rfl | ⟨low, high, rfl⟩)
    · exact Flow.own_advance fun hscans => (hform hscans).2
    · refine ⟨nofun, ?_, fun hscans => ⟨(hform hscans).1 _ line hhead.lt_last hhead.last_le, ?_⟩⟩
      · rintro _ _ _ _ _ ⟨⟩
        obtain ⟨t, ht, hname⟩ := hhead.name
        exact mem_namesIn ht hname
      · exact (hform hscans).2
  · rintro site world middle form _ hrun ⟨hhead, -⟩ (rfl | ⟨low, high, rfl⟩)
    · exact .pass hword (hhead.place site) hrun
    · exact .count line low high hword (hhead.place site) hrun

/-- **Every statement is executed in two stages**, and where it goes on follows from its form. -/
theorem staged_execute (hstart : scans → start < code.size) :
    Staged scans code start (fun site => Statement.check (site.place code) start) fun site =>
      Statement.execute (site.place code) start := by
  cases ht : code.tokens[start]? with
  | none =>
    have hfault : ¬scans := fun hscans =>
      Nat.not_lt.2 (Array.getElem?_eq_none_iff.1 ht) (hstart hscans)
    simp only [Statement.check, Statement.execute, Code.wordAt?, tokenAt, Site.tokens_place, ht]
    exact .of_acts (.fault (P := fun _ => False) hfault) (fun _ => False.elim)
      fun _ _ _ => False.elim
  | some t =>
    have hword : ∀ {word}, t.kind = .keyword word → code.wordAt? start = some word := fun hkind =>
      Code.wordAt?_of_isKeyword ht (decide_eq_true hkind)
    simp only [Statement.check, Statement.execute, Code.wordAt?, tokenAt, Site.tokens_place, ht,
      pure_bind, Option.bind_some, Token.keyword?]
    cases hkind : t.kind with
    | newline => exact .of_next (acts_advance _) hstart .token
    | identifier name => exact staged_named ht hkind
    | keyword word =>
      cases word with
      | input => exact staged_input hstart
      | print => exact staged_print hstart
      | ifClause => exact staged_branch (hword hkind)
      | whileLoop => exact staged_whileLoop ht (decide_eq_true hkind) t.span.line
      | forLoop => exact staged_forLoop (hword hkind) t.span.line
      | func => exact staged_define (hword hkind)
      | exec => exact staged_call ht hkind
      | exit =>
        refine .of_acts (Q := fun flow => flow = .exit)
          (.andThen (.note rfl) fun _ _ => .done rfl) ?_ ?_
        · rintro _ rfl
          exact Flow.own_exit
        · rintro site world _ rfl
          exact .exit
      | elifClause | elseClause | endBlock | leave | inBound | toBound =>
        exact .of_note rfl hstart
    | operator _ | assignment | number _ | text _ => exact .of_note rfl hstart

end

end TokenScript
