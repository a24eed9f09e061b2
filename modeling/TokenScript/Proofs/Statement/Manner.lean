import TokenScript.Proofs.Statement.Stages

/-!
# Manners

A *manner* says how an action may change the world that it is started in, and how it may be
abandoned.  It is kept by one action after another if each of them keeps it.  So a statement keeps a
manner if the few steps do that statements are put together of, and that is all that has to be shown
of it.

* `Manner`, `Manner.Keeps`: manners, and the actions that keep them.
* `Inspects.keeps`, `Acts.keeps`: the stages of a statement keep the manners that their steps keep.
-/

namespace TokenScript

open TokenScript.Action

variable {σ α β : Type}

/-- How actions may change a world. -/
structure Manner (σ : Type) where
  /-- The worlds in which an action may be started. -/
  Starts : World σ → Prop
  /-- What becomes of a world when an action returns. -/
  Goes : World σ → World σ → Prop
  /-- What becomes of a world when an action is abandoned. -/
  Stops : World σ → Abort → World σ → Prop
  refl (world : World σ) : Goes world world
  trans {a b c : World σ} : Goes a b → Goes b c → Goes a c
  stops_trans {a b c : World σ} {abort : Abort} : Goes a b → Stops b abort c → Stops a abort c

namespace Manner

/-- A result that was come to in this manner; `Q` is what is said of a value. -/
def Kept (M : Manner σ) (world : World σ) (Q : α → Prop) : EStateM.Result Abort (World σ) α → Prop
  | .ok u final => M.Starts final ∧ M.Goes world final ∧ Q u
  | .error abort final => M.Stops world abort final

/-- The action comes to its results in this manner. -/
def Keeps (M : Manner σ) (x : Action σ α) (Q : α → Prop) : Prop :=
  ∀ world, M.Starts world → M.Kept world Q (x.run world)

namespace Keeps

variable {M : Manner σ} {x : Action σ α} {f : α → Action σ β} {Q : α → Prop} {R : β → Prop}

theorem of_pure {u : α} (h : Q u) : M.Keeps (pure u) Q := fun world hstart =>
  ⟨hstart, M.refl world, h⟩

theorem of_throw {abort : Abort} (h : ∀ world, M.Starts world → M.Stops world abort world) :
    M.Keeps (throw abort) Q := h

theorem of_modify {change : World σ → World σ} {Q : PUnit → Prop} (hQ : Q ⟨⟩)
    (h : ∀ world, M.Starts world → M.Starts (change world) ∧ M.Goes world (change world)) :
    M.Keeps (modify change) Q := fun world hstart =>
  ⟨(h world hstart).1, (h world hstart).2, hQ⟩

/-- One action after another. -/
theorem bind (hx : M.Keeps x Q) (hf : ∀ u, Q u → M.Keeps (f u) R) : M.Keeps (x >>= f) R := by
  intro world hstart
  have hfirst := hx world hstart
  change M.Kept world R (EStateM.bind x f world)
  simp only [EStateM.run] at hfirst
  simp only [EStateM.bind]
  revert hfirst
  cases x world with
  | error abort final => exact id
  | ok u middle =>
    rintro ⟨hmiddle, hgoes, hQ⟩
    have hsecond := hf u hQ middle hmiddle
    simp only [EStateM.run] at hsecond
    dsimp only
    revert hsecond
    cases f u middle with
    | ok v final => exact fun hkept => ⟨hkept.1, M.trans hgoes hkept.2.1, hkept.2.2⟩
    | error abort final => exact M.stops_trans hgoes

/-- An action that starts with a look at the world. -/
theorem bind_get {f : World σ → Action σ α} (h : ∀ seen, M.Keeps (f seen) Q) :
    M.Keeps (get >>= f) Q :=
  fun world hstart => h world world hstart

/-- Less is said of the results. -/
theorem mono {R : α → Prop} (h : M.Keeps x Q) (himp : ∀ u, Q u → R u) : M.Keeps x R := by
  intro world hstart
  have hkept := h world hstart
  revert hkept
  cases x.run world with
  | ok u final => exact fun hkept => ⟨hkept.1, hkept.2.1, himp u hkept.2.2⟩
  | error abort final => exact id

/-- What is said of a result in particular. -/
theorem of_run (h : M.Keeps x Q) {world final : World σ} (hstart : M.Starts world) {u : α}
    (hrun : x.run world = .ok u final) : M.Starts final ∧ M.Goes world final ∧ Q u := by
  have hkept := h world hstart
  rw [hrun] at hkept
  exact hkept

end Keeps
end Manner

section

variable {scans : Prop} {code : Code} {site : Site} {M : Manner site.σ} {x : Routine α}
  {P : α → Prop}

/-- The steps of the first stage keep the manner. -/
structure Manner.Inspecting (scans : Prop) (code : Code) (site : Site)
    (M : Manner site.σ) : Prop where
  refused (world : World site.σ) (cause : StructuralCause) (span : Span) :
    M.Starts world → M.Stops world (.error ⟨.structural cause, span⟩) world
  fault (world : World site.σ) : ¬scans → M.Starts world → M.Stops world .fault world
  closeOf {start : Nat} {policy : BlockPolicy} : code.policyAt? start = some policy →
    M.Keeps (closeOf (site.place code) start policy) fun close =>
      scans → code.ClosesAt start policy close

/-- The steps of the second stage keep the manner. -/
structure Manner.Acting (scans : Prop) (code : Code) (site : Site) (M : Manner site.σ) : Prop where
  fault (world : World site.σ) : ¬scans → M.Starts world → M.Stops world .fault world
  note {event : Event} : event.isMatch = false → M.Keeps (note event) fun _ => True
  assign {name : String} (value : Value) : name ∈ namesIn code.tokens →
    M.Keeps (changeContext fun context => context.assign name value) fun _ => True
  define {name : String} (start stop : Nat) : name ∈ namesIn code.tokens →
    M.Keeps (defineBody name (code.tokens.extract start stop)) fun _ => True
  readLine (prompt : String) : M.Keeps (readLine prompt) fun _ => True
  writeLine (line : String) : M.Keeps (writeLine line) fun _ => True

/-- Whoever may note failures and write lines may evaluate. -/
theorem Manner.Keeps.evaluate [Console σ] {M : Manner σ}
    (hnote : ∀ event, event.isMatch = false → M.Keeps (note event) fun _ => True)
    (hwrite : ∀ line, M.Keeps (writeLine line) fun _ => True) (code : Code) (start : Nat) :
    M.Keeps (evaluate code start) fun _ => True := by
  refine .bind_get fun seen => ?_
  split
  · exact .of_pure trivial
  · refine .bind (.bind (hnote _ rfl) fun _ _ => hwrite _) fun _ _ => ?_
    exact .of_pure trivial

theorem Inspects.keeps (h : Inspects scans code x P) (hM : M.Inspecting scans code site) :
    M.Keeps (x site) P := by
  induction h with
  | done hu => exact .of_pure hu
  | andThen _ _ ihx ihf => exact .bind ihx ihf
  | refused cause span => exact .of_throw fun world => hM.refused world cause span
  | fault hscans => exact .of_throw fun world => hM.fault world hscans
  | closeOf hpolicy => exact hM.closeOf hpolicy

theorem Acts.keeps (h : Acts scans code x P) (hM : M.Acting scans code site) :
    M.Keeps (x site) P := by
  induction h with
  | done hu => exact .of_pure hu
  | andThen _ _ ihx ihf => exact .bind ihx ihf
  | fault hscans => exact .of_throw fun world => hM.fault world hscans
  | note hevent => exact hM.note hevent
  | assign value hname => exact hM.assign value hname
  | define start stop hname => exact hM.define start stop hname
  | readLine prompt => exact hM.readLine prompt
  | writeLine line => exact hM.writeLine line
  | evaluate start => exact .evaluate (fun _ => hM.note) hM.writeLine _ start

end

end TokenScript
