import Mathlib.Data.Option.Basic
import Mathlib.Data.Set.Basic
import TokenScript.Proofs.Expression.Names
import TokenScript.Proofs.Growth

/-!
# Two runs in lockstep

One program is run twice, in worlds that differ in something: in the console, in the limit on calls,
or in variables that the program does not mention.  The second run does what the first one does,
except that something may *cut it off*: it ends with an error where the first one goes on.  What the
first one does from then on only makes its console go on, so a relation of the two consoles that
survives this holds when both runs are over.

A `Lockstep` says what the worlds have in common, and how a run can be cut off.  Its laws are the
obligations of an instance; they speak of single changes of a world and of single looks at it.
Statements are put together of these, so two worlds in lockstep stay so, whatever statement is
executed in both.

* `Lockstep`: a relation of worlds that every change of a world keeps.
* `Manner.steady`: to let the console go on, as a run does whose partner has been cut off.
* `Lockstep.Pairs`: a triple for two actions at once, the second of which may be cut off.
* `Inspects.pairs`, `Acts.pairs`: the two stages of a statement.
* `Lockstep.pairs_execute`: every statement.
-/

namespace TokenScript

open TokenScript.Action

variable {σ τ : Type}

/-! ## Changes of a world -/

namespace World

/-- Stores a body; what is remembered is forgotten. -/
def define (world : World σ) (name : String) (body : Array Token) : World σ :=
  { world with
    context := world.context.define name body world.held
    closes := world.closes.map fun _ => ∅ }

/-- Remembers a close. -/
def remember (world : World σ) (code : Code) (start index : Nat) : World σ :=
  { world with closes := world.closes.map (·.insert (code.address, start) index) }

/-- The close that is remembered. -/
def remembered? (world : World σ) (code : Code) (start : Nat) : Option Nat :=
  world.closes.bind (·[(code.address, start)]?)

/-- Goes on with another console. -/
def heard (world : World σ) (console : σ) : World σ := { world with console := console }

/-- What becomes of an answer of the console: a result, or the end of the action. -/
def answered {α β : Type} (world : World σ) (f : α → β) :
    Except String α × σ → EStateM.Result Abort (World σ) β
  | (.ok answer, console) => .ok (f answer) (world.heard console)
  | (.error reason, console) => .error (.error ⟨.console reason, .nowhere⟩) (world.heard console)

theorem run_readLine_eq [Console σ] (prompt : String) (world : World σ) :
    (readLine prompt).run world =
      world.answered (·.getD "") (Console.readLine prompt world.console) := by
  rw [run_readLine]
  rcases Console.readLine prompt world.console with ⟨_ | _, _⟩ <;> rfl

theorem run_writeLine_eq [Console σ] (line : String) (world : World σ) :
    (writeLine line).run world = world.answered id (Console.writeLine line world.console) := by
  rw [run_writeLine]
  rcases Console.writeLine line world.console with ⟨_ | _, _⟩ <;> rfl

/-- One more call would be one too many. -/
def Full (world : World σ) : Prop := world.context.callLimit ≤ world.context.depth

end World

/-! ## Worlds in lockstep -/

/-- The answers of two consoles are equal, and `R` relates the consoles afterwards; or the second
console fails and cuts its run off. -/
def Answered {α : Type} (R : σ → τ → Prop) (Cut : σ → Error → τ → Prop) (x : Except String α × σ)
    (y : Except String α × τ) : Prop :=
  (x.1 = y.1 ∧ R x.2 y.2) ∨ ∃ reason, y.1 = .error reason ∧ Cut x.2 ⟨.console reason, .nowhere⟩ y.2

/-- What two worlds have in common while one program runs in both, and how the run in the second can
be cut off. -/
structure Lockstep (σ τ : Type) [Console σ] [Console τ] where
  Worlds : World σ → World τ → Prop
  /-- Pieces of code that are executed at the same time. -/
  Codes : Code → Code → Prop
  /-- The names that occur. -/
  Known : Set String
  /-- The second run has been cut off with an error; the consoles are those of the two runs. -/
  Cut : σ → Error → τ → Prop
  tokens_eq {code other : Code} : Codes code other → other.tokens = code.tokens
  names_known {code other : Code} : Codes code other → namesIn code.tokens ⊆ Known
  /-- The variables that occur have the same values. -/
  agree {a : World σ} {b : World τ} : Worlds a b → a.context.store.AgreeOn Known b.context.store
  /-- The same functions have bodies. -/
  bodies {a : World σ} {b : World τ} : Worlds a b → ∀ name,
    Option.Rel Codes (a.context.functions.get? name) (b.context.functions.get? name)
  /-- The same closes are remembered. -/
  remembered {a : World σ} {b : World τ} {code other : Code} : Worlds a b → Codes code other →
    ∀ start, a.remembered? code start = b.remembered? other start
  note {a : World σ} {b : World τ} : Worlds a b → ∀ event, Worlds (a.note event) (b.note event)
  assign {a : World σ} {b : World τ} {name : String} : Worlds a b → name ∈ Known →
    ∀ value, Worlds (a.assign name value) (b.assign name value)
  define {a : World σ} {b : World τ} {name : String} {body : Array Token} :
    Worlds a b → name ∈ Known → namesIn body ⊆ Known →
    Worlds (a.define name body) (b.define name body)
  remember {a : World σ} {b : World τ} {code other : Code} : Worlds a b → Codes code other →
    ∀ start index, Worlds (a.remember code start index) (b.remember other start index)
  startCall {a : World σ} {b : World τ} : Worlds a b →
    ∀ name, Worlds (a.startCall name) (b.startCall name)
  hold {a : World σ} {b : World τ} {code other : Code} : Worlds a b → Codes code other →
    Worlds (a.hold code) (b.hold other)
  endCall {a : World σ} {b : World τ} : Worlds a b → Worlds a.endCall b.endCall
  read {a : World σ} {b : World τ} : Worlds a b → ∀ prompt,
    Answered (fun c d => Worlds (a.heard c) (b.heard d)) Cut (Console.readLine prompt a.console)
      (Console.readLine prompt b.console)
  write {a : World σ} {b : World τ} : Worlds a b → ∀ line,
    Answered (fun c d => Worlds (a.heard c) (b.heard d)) Cut (Console.writeLine line a.console)
      (Console.writeLine line b.console)
  /-- The second world has no more room for calls than the first. -/
  full {a : World σ} {b : World τ} : Worlds a b → a.Full → b.Full
  /-- A call that cannot start in the second world cannot start in the first for the same reason, or
  else it cuts the second run off. -/
  refused {a : World σ} {b : World τ} : Worlds a b → b.Full →
    (a.Full ∧ a.context.callLimit = b.context.callLimit) ∨ ∀ name span,
      Cut a.console ⟨.evaluation (.callDepthExceeded b.context.callLimit name), span⟩ b.console
  /-- Whatever the first run goes on to say, the second one has been cut off. -/
  cut_later {c c' : σ} {e : Error} {d : τ} : Cut c e d → Console.Later c c' → Cut c' e d

/-- Of two worlds with one table of functions, the same functions have bodies. -/
theorem FunctionTable.rel_get?_self {R : Code → Code → Prop} (hR : ∀ code, R code code)
    (functions : FunctionTable) (name : String) :
    Option.Rel R (functions.get? name) (functions.get? name) := by
  cases functions.get? name with
  | none => exact .none
  | some body => exact .some (hR body)

/-! ## Actions that make the console go on -/

/-- Whatever an action comes to, its console has only gone on. -/
def Manner.steady [Console σ] : Manner σ where
  Starts _ := True
  Goes world final := Console.Later world.console final.console
  Stops world _ final := Console.Later world.console final.console
  refl _ := .refl
  trans hfirst hsecond := hfirst.trans hsecond
  stops_trans hfirst hsecond := hfirst.trans hsecond

theorem steady_readLine [Console σ] (prompt : String) :
    Manner.steady.Keeps (readLine (σ := σ) prompt) fun _ => True := by
  intro world _
  rw [run_readLine]
  rcases hread : Console.readLine prompt world.console with ⟨_ | _, console⟩
  · exact .single (Console.talks_of_read hread)
  · exact ⟨trivial, .single (Console.talks_of_read hread), trivial⟩

theorem steady_writeLine [Console σ] (line : String) :
    Manner.steady.Keeps (writeLine (σ := σ) line) fun _ => True := by
  intro world _
  rw [run_writeLine]
  rcases hwrite : Console.writeLine line world.console with ⟨_ | _, console⟩
  · exact .single (Console.talks_of_write hwrite)
  · exact ⟨trivial, .single (Console.talks_of_write hwrite), trivial⟩

section

variable {α : Type} {code : Code} {x : Routine α} {P : α → Prop} {site : Site}

theorem steady_acting : (Manner.steady (σ := site.σ)).Acting False code site where
  fault _ _ _ := .refl
  note _ := .of_modify trivial fun _ _ => ⟨trivial, .refl⟩
  assign _ _ := .of_modify trivial fun _ _ => ⟨trivial, .refl⟩
  define _ _ _ _ _ := ⟨trivial, .refl, trivial⟩
  readLine := steady_readLine
  writeLine := steady_writeLine

/-- To look at a form leaves the console as it is. -/
theorem Inspects.steady (h : Inspects False code x P) (site : Site) :
    Manner.steady.Keeps (x site) P := by
  have hlater : ∀ {console after : site.σ}, after = console → Console.Later console after :=
    fun heq => heq ▸ .refl
  intro world hstart
  have hkept := h.silent site world hstart
  revert hkept
  cases (x site).run world with
  | ok u final => exact fun hkept => ⟨trivial, hlater hkept.2.1.1, hkept.2.2⟩
  | error abort final => exact fun hkept => hlater hkept.2

end

namespace Lockstep

variable [Console σ] [Console τ] (L : Lockstep σ τ)

/-! ## Two actions -/

/-- The second run has ended because it was cut off. -/
def CutOff (console : σ) (outcome : Outcome) (other : τ) : Prop :=
  ∃ e, outcome = .failed e ∧ L.Cut console e other

section

variable {α β γ δ : Type} {V : α → β → Prop} {W : γ → δ → Prop}

/-- The second result is like the first, or has been cut off. -/
def Paired (V : α → β → Prop) :
    EStateM.Result Abort (World σ) α → EStateM.Result Abort (World τ) β → Prop
  | .ok u a, .ok v b => V u v ∧ L.Worlds a b
  | .error e a, .error d b => (e = d ∧ L.Worlds a b) ∨ L.CutOff a.console d.outcome b.console
  | .ok u a, .error d b => (∃ v, V u v) ∧ L.CutOff a.console d.outcome b.console
  | .error _ _, .ok _ _ => False

/-- Started in worlds in lockstep, the second action does what the first does, unless it is cut
off. -/
def Pairs (x : Action σ α) (y : Action τ β) (V : α → β → Prop) : Prop :=
  ∀ a b, L.Worlds a b → L.Paired V (x.run a) (y.run b)

variable {L}

theorem CutOff.later {c c' : σ} {outcome : Outcome} {d : τ} (h : L.CutOff c outcome d)
    (hlater : Console.Later c c') : L.CutOff c' outcome d := by
  obtain ⟨e, he, hcut⟩ := h
  exact ⟨e, he, L.cut_later hcut hlater⟩

/-- Once the second action has been cut off, the first may go on. -/
theorem Paired.of_cutOff {x : EStateM.Result Abort (World σ) α} {world : World σ} {d : Abort}
    {b : World τ} (hx : Manner.steady.Kept world (fun u => ∃ v, V u v) x)
    (hcut : L.CutOff world.console d.outcome b.console) : L.Paired V x (.error d b) := by
  cases x with
  | ok u a => exact ⟨hx.2.2, hcut.later hx.2.1⟩
  | error e a => exact Or.inr (hcut.later hx)

namespace Pairs

variable {x : Action σ α} {y : Action τ β}

theorem of_pure {u : α} {v : β} (h : V u v) : L.Pairs (pure u) (pure v) V := fun _ _ hab => ⟨h, hab⟩

theorem of_throw (abort : Abort) : L.Pairs (throw abort) (throw abort) V := fun _ _ hab =>
  Or.inl ⟨rfl, hab⟩

/-- One action after another. -/
theorem bind {f : α → Action σ γ} {g : β → Action τ δ} (h : L.Pairs x y V)
    (hfg : ∀ u v, V u v → L.Pairs (f u) (g v) W)
    (hf : ∀ u v, V u v → Manner.steady.Keeps (f u) fun s => ∃ t, W s t) :
    L.Pairs (x >>= f) (y >>= g) W := by
  intro a b hab
  have hfirst := h a b hab
  change L.Paired W (EStateM.bind x f a) (EStateM.bind y g b)
  simp only [EStateM.run] at hfirst
  simp only [EStateM.bind]
  revert hfirst
  cases x a with
  | ok u a =>
    cases y b with
    | ok v b => exact fun hfirst => hfg u v hfirst.1 a b hfirst.2
    | error d b =>
      -- the first action goes on alone, and all that matters is that its console only goes on
      rintro ⟨⟨v, huv⟩, hcut⟩
      exact Paired.of_cutOff (hf u v huv a trivial) hcut
  | error e a =>
    cases y b with
    | ok v b => exact False.elim
    | error d b => exact id

/-- Less is said of the results. -/
theorem mono {V' : α → β → Prop} (h : L.Pairs x y V) (himp : ∀ u v, V u v → V' u v) :
    L.Pairs x y V' := by
  intro a b hab
  have hpaired := h a b hab
  revert hpaired
  cases x.run a <;> cases y.run b
  · exact fun hpaired => ⟨himp _ _ hpaired.1, hpaired.2⟩
  · exact fun ⟨⟨v, huv⟩, hcut⟩ => ⟨⟨v, himp _ _ huv⟩, hcut⟩
  · exact id
  · exact id

/-- Actions that start with a look at the world. -/
theorem bind_get {f : World σ → Action σ α} {g : World τ → Action τ β}
    (h : ∀ a b, L.Worlds a b → L.Pairs (f a) (g b) V) : L.Pairs (get >>= f) (get >>= g) V :=
  fun a b hab => h a b hab a b hab

end Pairs
end

/-! ## The steps of statements -/

/-- The same result in both runs, of which something is said. -/
def Same {α : Type} (P : α → Prop) (u v : α) : Prop := u = v ∧ P u

theorem exists_same {α : Type} {P : α → Prop} {u : α} (h : P u) : ∃ v, Same P u v := ⟨u, rfl, h⟩

variable {L} {code other : Code}

theorem pairs_note (event : Event) :
    L.Pairs (Action.note event) (Action.note event) (Same fun _ => True) :=
  fun _ _ hab => ⟨⟨rfl, trivial⟩, L.note hab event⟩

theorem pairs_closeOf (hcode : L.Codes code other) (start : Nat) (policy : BlockPolicy) :
    L.Pairs (closeOf code start policy) (closeOf other start policy) (Same fun _ => True) := by
  intro a b hab
  have hmemo :
      a.closes.bind (·[(code.address, start)]?) = b.closes.bind (·[(other.address, start)]?) :=
    L.remembered hab hcode start
  rw [run_closeOf, run_closeOf, ← hmemo, L.tokens_eq hcode]
  cases a.closes.bind (·[(code.address, start)]?) with
  | some index => exact ⟨⟨rfl, trivial⟩, hab⟩
  | none =>
    cases policy.close code.tokens start with
    | error e => exact Or.inl ⟨rfl, hab⟩
    | ok found => exact ⟨⟨rfl, trivial⟩, L.remember (L.note hab _) hcode start found.index⟩

/-- Answers of consoles are passed on, or the actions are abandoned. -/
theorem paired_of_answered {α β : Type} {a : World σ} {b : World τ} {x : Except String α × σ}
    {y : Except String α × τ} (h : Answered (fun c d => L.Worlds (a.heard c) (b.heard d)) L.Cut x y)
    (f : α → β) : L.Paired (Same fun _ => True) (a.answered f x) (b.answered f y) := by
  obtain ⟨answer, c⟩ := x
  obtain ⟨answer', d⟩ := y
  rcases h with ⟨hanswer, hworlds⟩ | ⟨reason, hanswer, hcut⟩
  · obtain rfl : answer = answer' := hanswer
    cases answer with
    | ok line => exact ⟨⟨rfl, trivial⟩, hworlds⟩
    | error reason => exact Or.inl ⟨rfl, hworlds⟩
  · obtain rfl : answer' = .error reason := hanswer
    cases answer with
    | ok line => exact ⟨exists_same trivial, _, rfl, hcut⟩
    | error reason => exact Or.inr ⟨_, rfl, hcut⟩

theorem pairs_readLine (prompt : String) :
    L.Pairs (readLine prompt) (readLine prompt) (Same fun _ => True) := by
  intro a b hab
  rw [World.run_readLine_eq, World.run_readLine_eq]
  exact paired_of_answered (L.read hab prompt) (·.getD "")

theorem pairs_writeLine (line : String) :
    L.Pairs (writeLine line) (writeLine line) (Same fun _ => True) := by
  intro a b hab
  rw [World.run_writeLine_eq, World.run_writeLine_eq]
  exact paired_of_answered (L.write hab line) id

/-- The two stores agree on the names of the code, so the value is the same. -/
theorem pairs_evaluate (hcode : L.Codes code other) (start : Nat) :
    L.Pairs (evaluate code start) (evaluate other start) (Same fun _ => True) := by
  refine Pairs.bind_get fun a b hab => ?_
  have hagree : a.context.store.AgreeOn (namesIn code.tokens) b.context.store :=
    fun name hname => L.agree hab name (L.names_known hcode hname)
  rw [L.tokens_eq hcode, Expression.evaluateFrom_congr hagree]
  cases Expression.evaluateFrom code.tokens start b.context.store with
  | ok value => exact Pairs.of_pure ⟨rfl, trivial⟩
  | error failure =>
    have hreport : L.Pairs (report failure) (report failure) (Same fun _ => True) :=
      Pairs.bind (pairs_note _) (fun _ _ _ => pairs_writeLine _) fun _ _ _ =>
        (steady_writeLine _).mono fun _ _ => exists_same trivial
    exact Pairs.bind hreport (fun _ _ _ => Pairs.of_pure ⟨rfl, trivial⟩) fun _ _ _ =>
      .of_pure (exists_same trivial)

/-- A name has a body in both worlds or in none. -/
theorem bodies_cases {a : World σ} {b : World τ} (hab : L.Worlds a b) (name : String) :
    (a.context.functions.get? name = none ∧ b.context.functions.get? name = none) ∨
      ∃ body another, a.context.functions.get? name = some body ∧
        b.context.functions.get? name = some another ∧ L.Codes body another := by
  have hbodies := L.bodies hab name
  revert hbodies
  generalize a.context.functions.get? name = first, b.context.functions.get? name = second
  intro hbodies
  cases hbodies with
  | none => exact Or.inl ⟨rfl, rfl⟩
  | some hcodes => exact Or.inr ⟨_, _, rfl, rfl, hcodes⟩

/-- A call that starts in the first world starts in the second, or cuts the second run off. -/
theorem pairs_invoke (name : String) (span : Span) :
    L.Pairs (Statement.invoke name span) (Statement.invoke name span) L.Codes := by
  intro a b hab
  have hfull : a.Full → b.Full := L.full hab
  have hrefused := L.refused hab
  simp only [World.Full] at hfull hrefused
  rw [Statement.run_invoke, Statement.run_invoke]
  obtain ⟨ha, hb⟩ | ⟨body, another, ha, hb, hcodes⟩ := L.bodies_cases hab name
  · rw [ha, hb]
    exact Or.inl ⟨rfl, hab⟩
  · rw [ha, hb]
    dsimp only
    by_cases hdeep : b.context.callLimit ≤ b.context.depth
    · rw [if_pos hdeep]
      -- a call that is one too many ends both runs alike, or only the second
      obtain ⟨hfirst, hlimit⟩ | hcut := hrefused hdeep
      · rw [if_pos hfirst, hlimit]
        exact Or.inl ⟨rfl, hab⟩
      · split
        · exact Or.inr ⟨_, rfl, hcut name span⟩
        · exact ⟨⟨another, hcodes⟩, _, rfl, hcut name span⟩
    · rw [if_neg hdeep, if_neg (mt hfull hdeep)]
      exact ⟨hcodes, L.startCall hab name⟩

end Lockstep

/-! ## Statements -/

section

variable {here there : Site} {L : Lockstep here.σ there.σ} {code : Code} {α : Type} {x : Routine α}
  {P : α → Prop}

/-- To look at a form comes to the same in both runs. -/
theorem Inspects.pairs (h : Inspects False code x P)
    (hcode : L.Codes (here.place code) (there.place code)) :
    L.Pairs (x here) (x there) (Lockstep.Same P) := by
  induction h with
  | done hu => exact .of_pure ⟨rfl, hu⟩
  | andThen _ hf ihx ihf =>
    refine .bind ihx ?_ ?_
    · rintro u _ ⟨rfl, hu⟩
      exact ihf u hu
    · rintro u _ ⟨rfl, hu⟩
      exact ((hf u hu).steady here).mono fun _ => Lockstep.exists_same
  | refused => exact .of_throw _
  | fault => exact .of_throw _
  | closeOf hpolicy =>
    exact (Lockstep.pairs_closeOf hcode _ _).mono fun _ _ hsame => ⟨hsame.1, False.elim⟩

theorem Acts.pairs (h : Acts False code x P)
    (hcode : L.Codes (here.place code) (there.place code)) :
    L.Pairs (x here) (x there) (Lockstep.Same P) := by
  have hknown : ∀ {name}, name ∈ namesIn code.tokens → name ∈ L.Known := fun hname =>
    L.names_known hcode hname
  induction h with
  | done hu => exact .of_pure ⟨rfl, hu⟩
  | andThen _ hf ihx ihf =>
    refine .bind ihx ?_ ?_
    · rintro u _ ⟨rfl, hu⟩
      exact ihf u hu
    · rintro u _ ⟨rfl, hu⟩
      exact ((hf u hu).keeps steady_acting).mono fun _ => Lockstep.exists_same
  | fault => exact .of_throw _
  | note => exact Lockstep.pairs_note _
  | assign value hname =>
    exact fun _ _ hab => ⟨⟨rfl, trivial⟩, L.assign hab (hknown hname) value⟩
  | define start stop hname =>
    have hbody := (namesIn_extract code.tokens start stop).trans fun _ => hknown
    exact fun _ _ hab => ⟨⟨rfl, trivial⟩, L.define (L.note hab _) (hknown hname) hbody⟩
  | readLine prompt => exact Lockstep.pairs_readLine prompt
  | writeLine line => exact Lockstep.pairs_writeLine line
  | evaluate start => exact Lockstep.pairs_evaluate hcode start

end

namespace Lockstep

/-- Two flows go on alike. -/
inductive Flows [Console σ] [Console τ] (L : Lockstep σ τ) : Flow → Flow → Prop
  | advance (next : Nat) : Flows L (.advance next) (.advance next)
  | enter (block : Extent) (next : Nat) : Flows L (.enter block next) (.enter block next)
  | retest (condition : Nat) (loop : Loop) (next : Nat) :
    Flows L (.retest condition loop next) (.retest condition loop next)
  | count {name : String} (first last : Int64) (loop : Loop) (next : Nat) : name ∈ L.Known →
    Flows L (.count name first last loop next) (.count name first last loop next)
  | call {body another : Code} (next : Nat) : L.Codes body another →
    Flows L (.call body next) (.call another next)
  | exit : Flows L .exit .exit

/-- A flow that starts no call goes on alike in both runs. -/
theorem flows_of_own [Console σ] [Console τ] {L : Lockstep σ τ} {code : Code} {start : Nat}
    {flow : Flow} (h : flow.Own False code start) (hknown : namesIn code.tokens ⊆ L.Known) :
    L.Flows flow flow := by
  cases flow with
  | advance next => exact .advance next
  | enter block next => exact .enter block next
  | retest condition loop next => exact .retest condition loop next
  | count name first last loop next =>
    exact .count first last loop next (hknown (h.counter name first last loop next rfl))
  | call body next => exact absurd rfl (h.plain body next)
  | exit => exact .exit

end Lockstep

section

variable {code : Code} {start : Nat} {check : Routine Unit} {x : Routine Flow}

theorem Staged.pairs (h : Staged False code start check x) (here there : Site)
    {L : Lockstep here.σ there.σ} (hcode : L.Codes (here.place code) (there.place code)) :
    L.Pairs (x here) (x there) L.Flows := by
  have hknown : namesIn (here.place code).tokens ⊆ L.Known := L.names_known hcode
  cases h with
  | plain hform hrest hown =>
    refine .bind (hform.pairs hcode) ?_ ?_
    · rintro u _ ⟨rfl, hu⟩
      refine ((hrest u hu).pairs hcode).mono ?_
      rintro flow _ ⟨rfl, hflow⟩
      exact Lockstep.flows_of_own (hown u flow hu hflow) hknown
    · rintro u _ ⟨rfl, hu⟩
      refine ((hrest u hu).keeps steady_acting).mono fun flow hflow => ?_
      exact ⟨flow, Lockstep.flows_of_own (hown u flow hu hflow) hknown⟩
  | @call named _ next _ _ hunknown =>
    refine Lockstep.Pairs.bind_get fun a b hab => ?_
    obtain ⟨ha, hb⟩ | ⟨body, another, ha, hb, -⟩ := L.bodies_cases hab named.1
    · rw [ha, hb]
      exact .bind (hunknown.pairs hcode) (fun _ _ _ => .of_pure (.advance next)) fun _ _ _ =>
        .of_pure ⟨_, .advance next⟩
    · rw [ha, hb]
      exact .bind (Lockstep.pairs_invoke _ _) (fun _ _ hcodes => .of_pure (.call next hcodes))
        fun _ _ hcodes => .of_pure ⟨_, .call next hcodes⟩

end

namespace Lockstep

variable [Console σ] [Console τ] {L : Lockstep σ τ} {code other : Code}

theorem size_eq (hcode : L.Codes code other) : other.size = code.size :=
  congrArg Array.size (L.tokens_eq hcode)

/-- Every statement. -/
theorem pairs_execute (hcode : L.Codes code other) (start : Nat) :
    L.Pairs (Statement.execute code start) (Statement.execute other start) L.Flows := by
  obtain ⟨address, tokens⟩ := other
  obtain rfl : tokens = code.tokens := L.tokens_eq hcode
  exact (staged_execute False.elim).pairs ⟨code.address⟩ ⟨address⟩ hcode

end Lockstep
end TokenScript
