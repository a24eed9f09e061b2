import Mathlib.Logic.Relation
import TokenScript.Proofs.Statement.Manner

/-!
# What statements do

A statement changes the world in few ways.  It notes events, gives variables values, stores bodies
that it cuts out of its code, remembers closes, and talks to the console; and it may start a call,
after which it does nothing more.  When it is abandoned, then for one of four reasons: its form is
wrong, a block has no end, the console fails, or a call is one too many.  This file says so once,
for every statement; an invariant of all runs then needs a look at each *deed*, and not at each
statement.

A fault would be a fifth reason.  It is out of the question in a world that scans for every close,
since a scan stays inside the code; in a world that remembers closes it depends on what is
remembered.

* `Deed`, `Deeds`: the changes that a statement makes.
* `Halts`: how an action is abandoned that starts no call.
* `Manner.deeds`: to change the world by deeds.
* `Statement.Does`: what a statement comes to.
* `does_execute`: every statement.
-/

namespace TokenScript

open TokenScript.Action

variable {σ : Type}

/-- One more call is under way. -/
def World.startCall (world : World σ) (name : String) : World σ :=
  { world with
    context := { world.context with depth := world.context.depth + 1 }
    journal := world.journal.note (.callStarted name (world.context.depth + 1)) }

/-! ## Deeds -/

variable [Console σ]

/-- One change of the world that a statement of the code makes. -/
inductive Deed (code : Code) : World σ → World σ → Prop
  | note (world : World σ) (event : Event) : Deed code world (world.note event)
  | assign (world : World σ) (name : String) (value : Value) :
    Deed code world (world.assign name value)
  /-- A body is stored, and what is remembered is forgotten. -/
  | define (world : World σ) (name : String) (start stop : Nat) :
    Deed code world
      { world with
        context := world.context.define name (code.tokens.extract start stop) world.held
        closes := world.closes.map fun _ => ∅ }
  | remember (world : World σ) (start index : Nat) :
    Deed code world
      { world with closes := world.closes.map (·.insert (code.address, start) index) }
  | read (world : World σ) {prompt : String} {line : Option String} {console : σ} :
    Console.readLine prompt world.console = (.ok line, console) →
      Deed code world { world with console := console }
  | write (world : World σ) {line : String} {console : σ} :
    Console.writeLine line world.console = (.ok (), console) →
      Deed code world { world with console := console }

/-- Any number of changes, one after another. -/
abbrev Deeds (code : Code) : World σ → World σ → Prop := Relation.ReflTransGen (Deed code)

namespace Deeds

variable {code : Code} {world final : World σ}

/-- What no single change touches, no number of changes does. -/
theorem eq_of_deed {β : Type} {f : World σ → β} (h : Deeds code world final)
    (hdeed : ∀ a b, Deed code a b → f b = f a) : f final = f world := by
  induction h with
  | refl => rfl
  | tail _ hlast ih => exact (hdeed _ _ hlast).trans ih

theorem depth (h : Deeds code world final) : final.context.depth = world.context.depth :=
  h.eq_of_deed (f := fun w => w.context.depth) fun _ _ hdeed => by cases hdeed <;> rfl

theorem callLimit (h : Deeds code world final) :
    final.context.callLimit = world.context.callLimit :=
  h.eq_of_deed (f := fun w => w.context.callLimit) fun _ _ hdeed => by cases hdeed <;> rfl

/-- No change begins to remember closes, or stops. -/
theorem isNone_closes (h : Deeds code world final) : final.closes.isNone = world.closes.isNone := by
  refine h.eq_of_deed (f := fun w => w.closes.isNone) fun a b hdeed => ?_
  cases hdeed with
  | define | remember => simp
  | _ => rfl

/-- A world that scans for every close goes on doing so. -/
theorem scans (h : Deeds code world final) (hscans : world.closes = none) :
    final.closes = none := by
  have hnone := h.isNone_closes
  rw [hscans] at hnone
  exact Option.isNone_iff_eq_none.1 hnone

end Deeds

/-- An action that starts no call is abandoned. -/
inductive Halts (code : Code) : World σ → Abort → World σ → Prop
  | form (world : World σ) (cause : StructuralCause) (span : Span) :
    Halts code world (.error ⟨.structural cause, span⟩) world
  | block (world : World σ) {policy : BlockPolicy} {start : Nat} {e : Error} :
    policy.close code.tokens start = .error e → Halts code world (.error e) world
  | read (world : World σ) {prompt reason : String} {console : σ} :
    Console.readLine prompt world.console = (.error reason, console) →
      Halts code world (.error ⟨.console reason, .nowhere⟩) { world with console := console }
  | write (world : World σ) {line reason : String} {console : σ} :
    Console.writeLine line world.console = (.error reason, console) →
      Halts code world (.error ⟨.console reason, .nowhere⟩) { world with console := console }
  | fault (world : World σ) : world.closes ≠ none → Halts code world .fault world

namespace Halts

variable {code : Code} {world final : World σ} {abort : Abort}

theorem context (h : Halts code world abort final) : final.context = world.context := by
  cases h <;> rfl

end Halts

/-! ## The manner of statements -/

/-- Worlds change by deeds, and an action is abandoned for a reason of its own.  Either all worlds
scan for every close or none of them does. -/
def Manner.deeds (scans : Prop) (code : Code) : Manner σ where
  Starts world := scans ↔ world.closes = none
  Goes := Deeds code
  Stops world abort final := ∃ last, Deeds code world last ∧ Halts code last abort final
  refl _ := .refl
  trans := .trans
  stops_trans := fun hgoes ⟨last, hdeeds, hhalts⟩ => ⟨last, hgoes.trans hdeeds, hhalts⟩

/-- A world that scans for every close goes on doing so, and one that does not, does not. -/
theorem Deeds.starts {scans : Prop} {code : Code} {world final : World σ}
    (h : Deeds code world final) (hstart : scans ↔ world.closes = none) :
    scans ↔ final.closes = none := by
  rw [hstart, ← Option.isNone_iff_eq_none, ← Option.isNone_iff_eq_none, h.isNone_closes]

section

variable {scans : Prop} {code : Code}

theorem Manner.Keeps.of_deed {change : World σ → World σ}
    (hdeeds : ∀ world, Deeds code world (change world)) :
    (Manner.deeds scans code).Keeps (modify change) fun _ => True :=
  .of_modify trivial fun world hstart => ⟨(hdeeds world).starts hstart, hdeeds world⟩

/-- In a world that scans, the close is the one that a scan finds. -/
theorem deeds_closeOf (start : Nat) (policy : BlockPolicy) :
    (Manner.deeds (σ := σ) scans code).Keeps (closeOf code start policy) fun close =>
      scans → code.ClosesAt start policy close := by
  intro world hstart
  rw [run_closeOf]
  cases hmemo : world.closes.bind (·[(code.address, start)]?) with
  | some index =>
    refine ⟨hstart, .refl, fun hscans => ?_⟩
    rw [hstart.1 hscans, Option.bind_none] at hmemo
    cases hmemo
  | none =>
    cases hclose : policy.close code.tokens start with
    | error e => exact ⟨world, .refl, Halts.block world hclose⟩
    | ok found =>
      have hnote : Deed code world (world.note (.blockMatched start found.index found.keyword)) :=
        Deed.note world _
      have hdeeds : Deeds code world _ :=
        (Relation.ReflTransGen.single hnote).tail (.remember _ start found.index)
      exact ⟨Deeds.starts hdeeds hstart, hdeeds, fun _ => ⟨found, hclose, rfl⟩⟩

theorem deeds_note (event : Event) :
    (Manner.deeds (σ := σ) scans code).Keeps (note event) fun _ => True :=
  .of_deed fun world => .single (.note world event)

theorem deeds_readLine (prompt : String) :
    (Manner.deeds (σ := σ) scans code).Keeps (readLine prompt) fun _ => True := by
  intro world hstart
  rw [run_readLine]
  rcases hread : Console.readLine prompt world.console with ⟨_ | _, console⟩
  · exact ⟨world, .refl, .read world hread⟩
  · exact ⟨hstart, .single (.read world hread), trivial⟩

theorem deeds_writeLine (line : String) :
    (Manner.deeds (σ := σ) scans code).Keeps (writeLine line) fun _ => True := by
  intro world hstart
  rw [run_writeLine]
  rcases hwrite : Console.writeLine line world.console with ⟨_ | _, console⟩
  · exact ⟨world, .refl, .write world hwrite⟩
  · exact ⟨hstart, .single (.write world hwrite), trivial⟩

theorem deeds_evaluate (start : Nat) :
    (Manner.deeds (σ := σ) scans code).Keeps (evaluate code start) fun _ => True :=
  .evaluate (fun event _ => deeds_note event) deeds_writeLine code start

theorem deeds_inspecting (site : Site) :
    (Manner.deeds scans (site.place code)).Inspecting scans code site where
  refused world cause span _ := ⟨world, .refl, .form world cause span⟩
  fault world hfault hstart := ⟨world, .refl, .fault world (mt hstart.2 hfault)⟩
  closeOf {start policy} _ := deeds_closeOf start policy

theorem deeds_acting (site : Site) :
    (Manner.deeds scans (site.place code)).Acting scans code site where
  fault world hfault hstart := ⟨world, .refl, .fault world (mt hstart.2 hfault)⟩
  note {event} _ := deeds_note event
  assign {name} value _ := .of_deed fun world => .single (.assign world name value)
  define {name} start stop _ := by
    refine .bind (deeds_note _) fun _ _ => ?_
    exact .of_deed fun world => .single (.define world name start stop)
  readLine := deeds_readLine
  writeLine := deeds_writeLine

end

/-! ## Every statement -/

/-- What the statement at an index comes to.  It does its deeds and goes on, or is abandoned; or it
starts a call, unless that is one too many. -/
inductive Statement.Does (code : Code) (start : Nat) (world : World σ) :
    EStateM.Result Abort (World σ) Flow → Prop
  | goesOn {flow : Flow} {final : World σ} :
    flow.Plain → Deeds code world final → Does code start world (.ok flow final)
  | abandoned {abort : Abort} {last final : World σ} :
    Deeds code world last → Halts code last abort final → Does code start world (.error abort final)
  | called {name : String} {span : Span} {body : Code} {next : Nat} :
    code.call? start = some (name, span) → world.context.functions.get? name = some body →
      world.context.depth < world.context.callLimit →
      Does code start world (.ok (.call body next) (world.startCall name))
  | refused {name : String} {span : Span} {body : Code} :
    code.call? start = some (name, span) → world.context.functions.get? name = some body →
      world.context.callLimit ≤ world.context.depth →
      Does code start world
        (.error (.error ⟨.evaluation (.callDepthExceeded world.context.callLimit name), span⟩)
          world)

section

variable {code : Code} {start : Nat} {site : Site}

/-- What is known of an action that starts no call. -/
theorem Manner.Kept.does {world : World site.σ} {result : EStateM.Result Abort (World site.σ) Flow}
    {scans : Prop} (h : (Manner.deeds scans code).Kept world Flow.Plain result) :
    Statement.Does code start world result := by
  cases result with
  | ok flow final => exact .goesOn h.2.2 h.2.1
  | error abort final =>
    obtain ⟨last, hdeeds, hhalts⟩ := h
    exact .abandoned hdeeds hhalts

/-- A name is called that has a body, or something else is done. -/
theorem does_callOr {named : String × Span} {next : Nat} {unknown : Action site.σ Unit}
    {world : World site.σ} (hcall : code.call? start = some named)
    (hunknown : (Manner.deeds (world.closes = none) code).Keeps unknown fun _ => True) :
    Statement.Does code start world ((Statement.callOr named next unknown).run world) := by
  rw [Statement.callOr, run_get_bind]
  cases hget : world.context.functions.get? named.1 with
  | none =>
    have hadvance := hunknown.bind (f := fun _ => pure (Flow.advance next)) fun _ _ =>
      .of_pure (Flow.plain_advance next)
    exact (hadvance world Iff.rfl).does
  | some body =>
    have hinvoke := Statement.run_invoke named.1 named.2 world
    rw [hget] at hinvoke
    change Statement.Does code start world (EStateM.bind _ _ world)
    simp only [EStateM.run] at hinvoke
    simp only [EStateM.bind, hinvoke]
    by_cases hlimit : world.context.callLimit ≤ world.context.depth
    · simp only [hlimit, if_true]
      exact .refused hcall hget hlimit
    · simp only [hlimit, if_false]
      exact .called hcall hget (Nat.lt_of_not_le hlimit)

theorem Staged.does (site : Site) (world : World site.σ) {check : Routine Unit} {x : Routine Flow}
    (h : Staged (world.closes = none) code start check x) :
    Statement.Does (site.place code) start world ((x site).run world) := by
  cases h with
  | plain hform hrest hown =>
    refine (Manner.Keeps.bind (hform.keeps (deeds_inspecting site)) (fun u hu => ?_) world
      Iff.rfl).does
    exact ((hrest u hu).mono fun flow hflow => (hown u flow hu hflow).plain).keeps
      (deeds_acting site)
  | call hcall _ hunknown => exact does_callOr hcall (hunknown.keeps (deeds_acting site))

end

/-- What a statement comes to. -/
theorem does_execute {code : Code} {start : Nat} (hstart : start < code.size) (world : World σ) :
    Statement.Does code start world ((Statement.execute code start).run world) :=
  Staged.does ⟨code.address⟩ world (staged_execute fun _ => hstart)

end TokenScript
