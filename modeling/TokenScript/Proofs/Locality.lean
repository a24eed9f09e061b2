import TokenScript.Proofs.Lockstep.Runs

/-!
# A run depends on the names it mentions

All variables and functions of a script are global, and functions are stored while the script runs.
Still a run is confined to the names that stand in its program and in the bodies that it finds
stored: a body that it stores is cut out of code that it runs, so it brings no new names.  Variables
and functions of other names are left alone, and their values make no difference.

Two runs from contexts that agree on these names are in lockstep.  Nothing can cut one of them off,
and the addresses of bodies play no part, since the runs may as well scan for every close.

* `Context.mentioned`: the names that a run can get hold of.
* `Confined`: nothing but some names has been touched.
* `Context.AgreeOn`: two contexts differ in variables of other names only.
* `Context.localLockstep`: worlds that agree on the names are in lockstep.
* `run_depends_on_mentioned`: runs of a program.
-/

namespace TokenScript

variable {σ : Type} {names : Set String}

/-- The names that stand in the tokens of a program, or in the body of some function. -/
def Context.mentioned (context : Context) (tokens : Array Token) : Set String :=
  namesIn tokens ∪ {name | ∃ function body, context.functions.get? function = some body ∧
    name ∈ namesIn body.tokens}

/-- Only variables and functions of these names may differ from what they were, and the bodies of
functions mention no other names. -/
structure Confined (names : Set String) (context later : Context) : Prop where
  store : ∀ name ∉ names, later.store.get? name = context.store.get? name
  functions : ∀ name ∉ names, later.functions.get? name = context.functions.get? name
  bodies : ∀ name body, later.functions.get? name = some body → namesIn body.tokens ⊆ names

namespace Confined

variable {context later : Context} {name : String}

theorem assign (h : Confined names context later) (hname : name ∈ names) (value : Value) :
    Confined names context (later.assign name value) where
  store other hother := by
    have hne : name ≠ other := fun heq => hother (heq ▸ hname)
    exact (Store.get?_assign_of_ne _ _ hne).trans (h.store other hother)
  functions := h.functions
  bodies := h.bodies

theorem define (h : Confined names context later) (hname : name ∈ names) {body : Array Token}
    (hbody : namesIn body ⊆ names) (held : List Nat) :
    Confined names context (later.define name body held) where
  store := h.store
  functions other hother := by
    have hne : name ≠ other := fun heq => hother (heq ▸ hname)
    exact (FunctionTable.get?_define_of_ne _ _ _ hne).trans (h.functions other hother)
  bodies other code hcode := by
    obtain ⟨-, rfl⟩ | ⟨-, hold⟩ := FunctionTable.stored_cases hcode
    · exact hbody
    · exact h.bodies other code hold

theorem withDepth (h : Confined names context later) (change : Nat → Nat) :
    Confined names context { later with depth := change later.depth } :=
  ⟨h.store, h.functions, h.bodies⟩

end Confined

/-- The contexts have equal functions, limits and calls under way, and the variables of these names
have the same values. -/
structure Context.AgreeOn (names : Set String) (context other : Context) : Prop where
  store : context.store.AgreeOn names other.store
  functions : ∀ name, (context.functions.get? name).map Code.tokens =
    (other.functions.get? name).map Code.tokens
  callLimit : context.callLimit = other.callLimit
  depth : context.depth = other.depth

namespace Context.AgreeOn

variable {context other : Context} {name : String}

theorem refl (names : Set String) (context : Context) : context.AgreeOn names context :=
  ⟨fun _ _ => rfl, fun _ => rfl, rfl, rfl⟩

theorem assign (h : context.AgreeOn names other) (name : String) (value : Value) :
    (context.assign name value).AgreeOn names (other.assign name value) where
  store another hanother := by
    by_cases hname : name = another
    · subst hname
      exact (Store.get?_assign_self _ _ _).trans (Store.get?_assign_self _ _ _).symm
    · exact (Store.get?_assign_of_ne _ _ hname).trans
        ((h.store another hanother).trans (Store.get?_assign_of_ne _ _ hname).symm)
  functions := h.functions
  callLimit := h.callLimit
  depth := h.depth

theorem define (h : context.AgreeOn names other) (name : String) (body : Array Token)
    (held held' : List Nat) :
    (context.define name body held).AgreeOn names (other.define name body held') where
  store := h.store
  functions another := by
    by_cases hname : name = another
    · subst hname
      simp [Context.define]
    · simp [Context.define, FunctionTable.get?_define_of_ne _ _ _ hname, h.functions another]
  callLimit := h.callLimit
  depth := h.depth

theorem withDepth (h : context.AgreeOn names other) (change : Nat → Nat) :
    { context with depth := change context.depth }.AgreeOn names
      { other with depth := change other.depth } :=
  ⟨h.store, h.functions, h.callLimit, congrArg change h.depth⟩

end Context.AgreeOn

/-! ## Lockstep -/

/-- Two worlds that started in the contexts `start` and `start'` and agree on the names: both are
confined to them, have the same console, and scan for every close. -/
structure World.Local (names : Set String) (start start' : Context) (a b : World σ) : Prop where
  confined : Confined names start a.context
  confined' : Confined names start' b.context
  agree : a.context.AgreeOn names b.context
  console : a.console = b.console
  scans : a.closes = none
  scans' : b.closes = none

/-- The codes have the same tokens, and mention only these names. -/
structure Code.Local (names : Set String) (code other : Code) : Prop where
  tokens_eq : other.tokens = code.tokens
  mentions : namesIn code.tokens ⊆ names

variable {start start' : Context} {a b : World σ}

theorem World.Local.bodies (h : World.Local names start start' a b) (name : String) :
    Option.Rel (Code.Local names) (a.context.functions.get? name)
      (b.context.functions.get? name) := by
  have htokens := h.agree.functions name
  have hmentions := h.confined.bodies name
  revert htokens hmentions
  cases a.context.functions.get? name with
  | none =>
    cases b.context.functions.get? name with
    | none => exact fun _ _ => .none
    | some other => exact nofun
  | some body =>
    cases b.context.functions.get? name with
    | none => exact nofun
    | some other =>
      intro htokens hmentions
      exact .some ⟨(Option.some.inj htokens).symm, hmentions body rfl⟩

variable [Console σ]

/-- Worlds that agree on the names are in lockstep, and nothing cuts a run off. -/
def Context.localLockstep (names : Set String) (start start' : Context) : Lockstep σ σ where
  Worlds := World.Local names start start'
  Codes := Code.Local names
  Known := names
  Cut _ _ _ := False
  tokens_eq h := h.tokens_eq
  names_known h := h.mentions
  agree h := h.agree.store
  bodies h := h.bodies
  remembered h _ start := by
    rw [World.remembered?, World.remembered?, h.scans, h.scans']
    rfl
  note h _ := { h with }
  assign h hname value := { h with
    confined := h.confined.assign hname value
    confined' := h.confined'.assign hname value
    agree := h.agree.assign _ value }
  define h hname hbody := { h with
    confined := h.confined.define hname hbody _
    confined' := h.confined'.define hname hbody _
    agree := h.agree.define _ _ _ _
    scans := congrArg (Option.map fun _ => ∅) h.scans
    scans' := congrArg (Option.map fun _ => ∅) h.scans' }
  remember h _ start index := { h with
    scans := congrArg (Option.map _) h.scans
    scans' := congrArg (Option.map _) h.scans' }
  startCall h _ := { h with
    confined := h.confined.withDepth (· + 1)
    confined' := h.confined'.withDepth (· + 1)
    agree := h.agree.withDepth (· + 1) }
  hold h _ := { h with }
  endCall h := { h with
    confined := h.confined.withDepth (· - 1)
    confined' := h.confined'.withDepth (· - 1)
    agree := h.agree.withDepth (· - 1) }
  read h prompt := by
    rw [h.console]
    exact Or.inl ⟨rfl, { h with console := rfl }⟩
  write h line := by
    rw [h.console]
    exact Or.inl ⟨rfl, { h with console := rfl }⟩
  full h hfull := by
    rw [World.Full, ← h.agree.callLimit, ← h.agree.depth]
    exact hfull
  refused h hfull := by
    rw [World.Full, ← h.agree.callLimit, ← h.agree.depth] at hfull
    exact Or.inl ⟨hfull, h.agree.callLimit⟩
  cut_later h _ := h

/-! ## Runs -/

/-- The reports have the same outcome and console, and their contexts agree on the names. -/
structure Report.AgreeOn (names : Set String) (report other : Report σ) : Prop where
  outcome : report.outcome = other.outcome
  console : report.console = other.console
  context : report.context.AgreeOn names other.context

namespace Context

variable {context other : Context} {tokens : Array Token}

theorem confined_start (h : context.AgreeOn names other)
    (hbodies : ∀ name body, context.functions.get? name = some body → namesIn body.tokens ⊆ names) :
    Confined names other other where
  store _ _ := rfl
  functions _ _ := rfl
  bodies name another hanother := by
    have htokens := h.functions name
    rw [hanother, Option.map_some] at htokens
    obtain ⟨body, hbody, heq⟩ := Option.map_eq_some_iff.1 htokens
    rw [← heq]
    exact hbodies name body hbody

theorem namesIn_subset_mentioned {name : String} {body : Code}
    (h : context.functions.get? name = some body) (tokens : Array Token) :
    namesIn body.tokens ⊆ context.mentioned tokens :=
  fun _ hmem => Or.inr ⟨name, body, h, hmem⟩

/-- The machines that run a program in contexts that agree on the names that are mentioned, when
both scan for every close. -/
theorem machines_local (h : context.AgreeOn (context.mentioned tokens) other) (console : σ)
    (journal journal' : Journal) (extent : Extent) :
    (localLockstep (context.mentioned tokens) context other).Machines
      (.start (.program tokens) extent { context.world console journal with closes := none })
      (.start (.program tokens) extent { other.world console journal' with closes := none }) := by
  have hbodies : ∀ name body, context.functions.get? name = some body →
      namesIn body.tokens ⊆ context.mentioned tokens :=
    fun _ _ hbody => namesIn_subset_mentioned hbody tokens
  have hcode : Code.Local (context.mentioned tokens) (.program tokens) (.program tokens) :=
    ⟨rfl, Set.subset_union_left⟩
  exact ⟨.cons (.block _ _ hcode) .nil,
    ⟨confined_start (.refl _ context) hbodies, confined_start h hbodies, h, rfl, rfl, rfl⟩⟩

omit [Console σ] in
/-- Reports agree as the worlds do in which machines halt that come to the same. -/
theorem rel_of_shown {report report' : Option (Report σ)}
    {answer answer' : Option (Outcome × World σ)}
    (hreport : report.map (fun report => (report.outcome, report.context, report.console)) =
      answer.map fun answer => (answer.1, answer.2.context, answer.2.console))
    (hreport' : report'.map (fun report => (report.outcome, report.context, report.console)) =
      answer'.map fun answer => (answer.1, answer.2.context, answer.2.console))
    (h : Option.Rel (fun answer answer' => answer.1 = answer'.1 ∧
      World.Local names start start' answer.2 answer'.2) answer answer') :
    Option.Rel (fun report report' => report.AgreeOn names report' ∧
      Confined names start report.context) report report' := by
  cases h with
  | none =>
    rw [Option.map_none, Option.map_eq_none_iff] at hreport hreport'
    rw [hreport, hreport']
    exact .none
  | some hab =>
    rw [Option.map_some] at hreport hreport'
    obtain ⟨report, rfl, heq⟩ := Option.map_eq_some_iff.1 hreport
    obtain ⟨report', rfl, heq'⟩ := Option.map_eq_some_iff.1 hreport'
    simp only [Prod.mk.injEq] at heq heq'
    obtain ⟨houtcome, hlocal⟩ := hab
    refine .some ⟨⟨?_, ?_, ?_⟩, ?_⟩
    · rw [heq.1, heq'.1]
      exact houtcome
    · rw [heq.2.2, heq'.2.2]
      exact hlocal.console
    · rw [heq.2.1, heq'.2.1]
      exact hlocal.agree
    · rw [heq.2.1]
      exact hlocal.confined

/-- Runs in contexts that agree on the names that are mentioned. -/
theorem rel_runTokens (h : context.AgreeOn (context.mentioned tokens) other) (fuel : Nat)
    (console : σ) (journal journal' : Journal) :
    Option.Rel
      (fun report report' => report.AgreeOn (context.mentioned tokens) report' ∧
        Confined (context.mentioned tokens) context report.context)
      (context.runTokens fuel console journal tokens)
      (other.runTokens fuel console journal' tokens) :=
  rel_of_shown (runTokens_shown fuel context console journal tokens)
    (runTokens_shown fuel other console journal' tokens)
    (Lockstep.rel_run (fun _ _ _ => id) (machines_local h console _ _ _) fuel)

end Context

/-- **A run depends on the names that it mentions, and touches no others.**  Take a program, a
context and a console, and the names that stand in the program or in a body that is stored.

* However a run ends: variables of other names keep their values, or have none as before; functions
  of other names keep their bodies; and no body mentions other names.
* In a second context with equal functions, limit and count of calls, in which the variables of
  these names have the same values, a run takes as many steps or does not end either.  It has the
  same outcome, the same console and the same functions, and the variables of these names agree
  again. -/
theorem run_depends_on_mentioned (σ : Type) [Console σ] (tokens : Array Token) (context : Context)
    (console : σ) :
    (∀ (fuel : Nat) (journal : Journal) (report : Report σ),
      context.runTokens fuel console journal tokens = some report →
        Confined (context.mentioned tokens) context report.context) ∧
    ∀ other : Context, context.AgreeOn (context.mentioned tokens) other →
      ∀ (fuel : Nat) (journal journal' : Journal),
        Option.Rel (Report.AgreeOn (context.mentioned tokens))
          (context.runTokens fuel console journal tokens)
          (other.runTokens fuel console journal' tokens) := by
  constructor
  · intro fuel journal report hrun
    -- a run keeps pace with itself
    have hrel :=
      Context.rel_runTokens (.refl (context.mentioned tokens) context) fuel console journal journal
    rw [hrun] at hrel
    cases hrel with
    | some hsame => exact hsame.2
  · intro other hagree fuel journal journal'
    have hrel := Context.rel_runTokens hagree fuel console journal journal'
    generalize context.runTokens fuel console journal tokens = first at hrel ⊢
    generalize other.runTokens fuel console journal' tokens = second at hrel ⊢
    cases hrel with
    | none => exact .none
    | some hsame => exact .some hsame.1

/-- A context in which `f` reads a line and calls itself, and `y` has a value. -/
def askingBeside (value : Int64) : Context := selfAsking.assign "y" (.int value)

theorem get?_askingBeside {value : Int64} {name : String} {body : Code}
    (h : (askingBeside value).functions.get? name = some body) : body = askingBody := by
  obtain ⟨-, rfl⟩ | ⟨-, hnone⟩ := FunctionTable.stored_cases h
  · rfl
  · change (∅ : FunctionTable).get? name = some body at hnone
    rw [FunctionTable.get?_empty] at hnone
    cases hnone

/-- The program `f` and the body of `f` mention `f` and `x` only. -/
theorem not_mem_mentioned_askingBeside (value : Int64) :
    "y" ∉ (askingBeside value).mentioned #[callOf ⟨3, 0⟩] := by
  rintro (hprogram | ⟨function, body, hbody, hmem⟩)
  · simp [namesIn, callOf, Token.identifier?] at hprogram
  · obtain rfl := get?_askingBeside hbody
    simp [namesIn, askingBody, inputLine, callOf, Token.identifier?] at hmem

theorem agreeOn_askingBeside :
    (askingBeside 1).AgreeOn ((askingBeside 1).mentioned #[callOf ⟨3, 0⟩]) (askingBeside 2) where
  store name hname := by
    have hne : "y" ≠ name := fun heq => not_mem_mentioned_askingBeside 1 (heq ▸ hname)
    exact (Store.get?_assign_of_ne _ _ hne).trans (Store.get?_assign_of_ne _ _ hne).symm
  functions _ := rfl
  callLimit := rfl
  depth := rfl

/-- The program `f` reads a line and fails in its second call.  It never mentions `y`, which keeps
its value and makes no difference. -/
theorem run_depends_on_mentioned_asking :
    ∃ report other : Report Console.Buffered,
      (askingBeside 1).runTokens 3 (⟨["7"], []⟩ : Console.Buffered) .silent #[callOf ⟨3, 0⟩] =
        some report ∧
      (askingBeside 2).runTokens 3 (⟨["7"], []⟩ : Console.Buffered) .silent #[callOf ⟨3, 0⟩] =
        some other ∧
      report.console = ⟨[], [.prompt "Enter value for x: "]⟩ ∧
      report.context.store.get? "y" = some (.int 1) ∧
      report.AgreeOn ((askingBeside 1).mentioned #[callOf ⟨3, 0⟩]) other := by
  have hshown : ((askingBeside 1).runTokens 3 (⟨["7"], []⟩ : Console.Buffered) .silent
      #[callOf ⟨3, 0⟩]).map Report.console =
        some ⟨[], [.prompt "Enter value for x: "]⟩ := by decide +kernel
  obtain ⟨report, hreport, hconsole⟩ := Option.map_eq_some_iff.1 hshown
  obtain ⟨hconfined, hagree⟩ := run_depends_on_mentioned Console.Buffered #[callOf ⟨3, 0⟩]
    (askingBeside 1) ⟨["7"], []⟩
  have hrel := hagree (askingBeside 2) agreeOn_askingBeside 3 .silent .silent
  rw [hreport] at hrel
  generalize (askingBeside 2).runTokens 3 (⟨["7"], []⟩ : Console.Buffered) .silent
    #[callOf ⟨3, 0⟩] = second at hrel ⊢
  cases hrel with
  | @some _ other hsame =>
    refine ⟨report, other, hreport, rfl, hconsole, ?_, hsame⟩
    have hkept := (hconfined 3 .silent report hreport).store "y" (not_mem_mentioned_askingBeside 1)
    rw [hkept]
    exact Store.get?_assign_self _ _ _

end TokenScript
