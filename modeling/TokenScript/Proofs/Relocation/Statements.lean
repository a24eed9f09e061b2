import Mathlib.Data.List.Forall2
import Mathlib.Data.Option.Basic
import TokenScript.Proofs.Relocation.Code

/-!
# Statements in other places

A statement of some code, and the same statement where the code stands inside other code, do the
same to worlds that differ in places only: in the places of the tokens of stored bodies, in where
the bodies lie, and in the journal.  The flows that they come to have all indices moved.

If anything follows the code in the other code, this holds as long as the first statement is not
abandoned.  A block without an end in the code may well find one behind it, and a word that is
missing at the end of the code is there a line end; so nothing is said then of the other statement.

All worlds here scan for every close.  Even indices differ between the two pieces of code, so it
does not help to know how a statement does the same with one piece of code in two worlds; the
statements are gone through one by one.

* `Context.Similar`, `World.Similar`: equal up to places.
* `Tracks`: a triple for two actions, the second of which does what the first does.
* `Flow.Moved`: flows with moved indices.
* `tracks_execute`: every statement.
-/

namespace TokenScript

open TokenScript.Action

variable {σ : Type}

/-! ## Equal up to places -/

/-- Contexts that are equal up to the places in stored bodies and the addresses of these. -/
structure Context.Similar (context other : Context) : Prop where
  store : context.store = other.store
  functions : ∀ name, (context.functions.get? name).map Code.shapes =
    (other.functions.get? name).map Code.shapes
  callLimit : context.callLimit = other.callLimit
  depth : context.depth = other.depth

/-- Worlds that scan for every close, and are equal up to places and what is noted. -/
structure World.Similar (world other : World σ) : Prop where
  context : world.context.Similar other.context
  console : world.console = other.console
  scans : world.closes = none
  scans' : other.closes = none

/-- Actions that were abandoned for the same cause. -/
def Abort.Similar : Abort → Abort → Prop
  | .error e, .error d => e.cause = d.cause
  | .fault, .fault => True
  | .error _, .fault => False
  | .fault, .error _ => False

namespace Context.Similar

variable {context other : Context}

theorem refl (context : Context) : context.Similar context := ⟨rfl, fun _ => rfl, rfl, rfl⟩

theorem assign (h : context.Similar other) (name : String) (value : Value) :
    (context.assign name value).Similar (other.assign name value) :=
  { h with store := congrArg (Store.assign · name value) h.store }

theorem withDepth (h : context.Similar other) (change : Nat → Nat) :
    { context with depth := change context.depth }.Similar
      { other with depth := change other.depth } :=
  { h with depth := congrArg change h.depth }

theorem define (h : context.Similar other) (name : String) {body another : Array Token}
    (hbody : body.toList.map Token.shape = another.toList.map Token.shape) (held held' : List Nat) :
    (context.define name body held).Similar (other.define name another held') := by
  refine { h with functions := fun called => ?_ }
  by_cases hname : name = called
  · subst hname
    simpa [Context.define, Code.shapes] using hbody
  · simp only [Context.define, FunctionTable.get?_define_of_ne _ _ _ hname]
    exact h.functions called

/-- A name has a body in both contexts or in neither. -/
theorem get?_cases (h : context.Similar other) (name : String) :
    (context.functions.get? name = none ∧ other.functions.get? name = none) ∨
      ∃ body another, context.functions.get? name = some body ∧
        other.functions.get? name = some another ∧ body.shapes = another.shapes := by
  have hname := h.functions name
  cases hbody : context.functions.get? name with
  | none =>
    rw [hbody, Option.map_none, eq_comm, Option.map_eq_none_iff] at hname
    exact Or.inl ⟨rfl, hname⟩
  | some body =>
    rw [hbody, Option.map_some, eq_comm] at hname
    obtain ⟨another, hanother, hshapes⟩ := Option.map_eq_some_iff.1 hname
    exact Or.inr ⟨body, another, rfl, hanother, hshapes.symm⟩

end Context.Similar

/-! ## Two actions -/

section

variable {α β γ δ : Type} {whole : Prop} {V : α → β → Prop} {W : γ → δ → Prop}

/-- Two results of one kind.  Unless the code is the whole rest of the other code, nothing is said
of the second if the first action was abandoned. -/
def Tracked (whole : Prop) (V : α → β → Prop) :
    EStateM.Result Abort (World σ) α → EStateM.Result Abort (World σ) β → Prop
  | .ok u a, .ok v b => V u v ∧ a.Similar b
  | .error e a, .error d b => whole → e.Similar d ∧ a.Similar b
  | .ok _ _, .error _ _ => False
  | .error _ _, .ok _ _ => ¬whole

/-- In worlds that are equal up to places, the second action does what the first does. -/
def Tracks (whole : Prop) (x : Action σ α) (y : Action σ β) (V : α → β → Prop) : Prop :=
  ∀ a b, a.Similar b → Tracked whole V (x.run a) (y.run b)

namespace Tracks

variable {x : Action σ α} {y : Action σ β}

theorem of_pure {u : α} {v : β} (h : V u v) : Tracks (σ := σ) whole (pure u) (pure v) V :=
  fun _ _ hab => ⟨h, hab⟩

theorem of_throw {e d : Abort} (h : e.Similar d) : Tracks (σ := σ) whole (throw e) (throw d) V :=
  fun _ _ hab _ => ⟨h, hab⟩

theorem of_fail (cause : Cause) (span span' : Span) :
    Tracks (σ := σ) whole (fail cause span) (fail cause span') V :=
  of_throw rfl

/-- Where something follows the code, an action that is abandoned says nothing. -/
theorem of_abandoned (hopen : ¬whole) (hx : ∀ a, ∃ e final, x.run a = .error e final) :
    Tracks whole x y V := by
  intro a b _
  obtain ⟨e, final, herror⟩ := hx a
  rw [herror]
  cases y.run b with
  | ok v b => exact hopen
  | error d b => exact fun hwhole => absurd hwhole hopen

theorem of_modify {f g : World σ → World σ} (h : ∀ a b, a.Similar b → (f a).Similar (g b)) :
    Tracks whole (modify f) (modify g) fun _ _ => True :=
  fun a b hab => ⟨trivial, h a b hab⟩

/-- One action after another. -/
theorem bind {f : α → Action σ γ} {g : β → Action σ δ} (h : Tracks whole x y V)
    (hfg : ∀ u v, V u v → Tracks whole (f u) (g v) W) : Tracks whole (x >>= f) (y >>= g) W := by
  intro a b hab
  have hfirst := h a b hab
  change Tracked whole W (EStateM.bind x f a) (EStateM.bind y g b)
  simp only [EStateM.run] at hfirst
  simp only [EStateM.bind]
  revert hfirst
  cases x a with
  | ok u a =>
    cases y b with
    | ok v b => exact fun hfirst => hfg u v hfirst.1 a b hfirst.2
    | error d b => exact fun hfirst => hfirst.elim
  | error e a =>
    cases y b with
    | error d b => exact id
    | ok v b =>
      intro hopen
      dsimp only
      cases g v b with
      | ok _ _ => exact hopen
      | error _ _ => exact fun hwhole => absurd hwhole hopen

/-- Actions that start with a look at the world. -/
theorem bind_get {f : World σ → Action σ α} {g : World σ → Action σ β}
    (h : ∀ a b, a.Similar b → Tracks whole (f a) (g b) V) :
    Tracks whole (get >>= f) (get >>= g) V :=
  fun a b hab => h a b hab a b hab

theorem ite {p q : Prop} [Decidable p] [Decidable q] {x' : Action σ α} {y' : Action σ β}
    (hiff : p ↔ q) (hpos : p → Tracks whole x y V) (hneg : ¬p → Tracks whole x' y' V) :
    Tracks whole (if p then x else x') (if q then y else y') V := by
  by_cases hp : p
  · rw [if_pos hp, if_pos (hiff.1 hp)]
    exact hpos hp
  · rw [if_neg hp, if_neg (mt hiff.2 hp)]
    exact hneg hp

end Tracks

/-- Nothing is said of two results. -/
abbrev anyResults : α → β → Prop := fun _ _ => True

end

variable {whole : Prop} {offset : Nat} {code other : Code}

theorem tracks_note (event event' : Event) :
    Tracks (σ := σ) whole (note event) (note event') anyResults :=
  Tracks.of_modify fun _ _ hab => { hab with }

theorem tracks_changeContext {change : Context → Context}
    (h : ∀ context other : Context, context.Similar other →
      (change context).Similar (change other)) :
    Tracks (σ := σ) whole (changeContext change) (changeContext change) anyResults :=
  Tracks.of_modify fun _ _ hab => { hab with context := h _ _ hab.context }

/-! ## Looking at tokens -/

/-- An index of the code, and that of the same token in the other code. -/
structure IndexMoved (code : Code) (offset i j : Nat) : Prop where
  eq : j = i + offset
  inside : i ≤ code.size

theorem tracks_tokenAt (h : Relocated whole offset code other) {i j : Nat} (hj : j = i + offset)
    (hi : i < code.size) :
    Tracks (σ := σ) whole (tokenAt code i) (tokenAt other j)
      fun t u => code.tokens[i]? = some t ∧ ∃ place, u = t.movedTo place := by
  subst hj
  have ht : code.tokens[i]? = some code.tokens[i] := Array.getElem?_eq_getElem hi
  obtain ⟨place, hother⟩ := h.exists_token ht
  simp only [tokenAt, ht, hother]
  exact Tracks.of_pure ⟨rfl, place, rfl⟩

theorem tracks_refuse {α β : Type} {V : α → β → Prop} (h : Relocated whole offset code other)
    {i j : Nat} (hj : j = i + offset) (cause : Option String → StructuralCause) :
    Tracks (σ := σ) whole (Statement.refuse code i cause) (Statement.refuse other j cause) V := by
  subst hj
  cases ht : code.tokens[i]? with
  | some t =>
    obtain ⟨place, hother⟩ := h.exists_token ht
    simp only [Statement.refuse, ht, hother]
    exact Tracks.of_fail _ _ _
  | none =>
    rcases h.none_or ht with hnone | hopen
    · simp only [Statement.refuse, ht, hnone]
      exact Tracks.of_fail _ _ _
    · refine Tracks.of_abandoned hopen fun a => ?_
      simp only [Statement.refuse, ht]
      exact ⟨_, a, rfl⟩

theorem tracks_expectName (h : Relocated whole offset code other) {i j : Nat} (hj : j = i + offset)
    (after : Keyword) :
    Tracks (σ := σ) whole (Statement.expectName code i after) (Statement.expectName other j after)
      fun u v => u.1 = v.1 ∧ i < code.size := by
  have hrefuse := tracks_refuse (σ := σ) (α := String × Span) (β := String × Span)
    (V := fun u v => u.1 = v.1 ∧ i < code.size) h hj (.nameExpected after)
  subst hj
  cases ht : code.tokens[i]? with
  | some t =>
    obtain ⟨place, hother⟩ := h.exists_token ht
    simp only [Statement.expectName, ht, hother, Token.identifier?_movedTo]
    cases t.identifier? with
    | some name => exact Tracks.of_pure ⟨rfl, (Array.getElem?_eq_some_iff.1 ht).1⟩
    | none => exact hrefuse
  | none =>
    rcases h.none_or ht with hnone | hopen
    · simp only [Statement.expectName, ht, hnone]
      exact hrefuse
    · refine Tracks.of_abandoned hopen fun a => ?_
      simp only [Statement.expectName, Statement.refuse, ht]
      exact ⟨_, a, rfl⟩

theorem tracks_expectKeyword (h : Relocated whole offset code other) {i j : Nat}
    (hj : j = i + offset) (word : Keyword) :
    Tracks (σ := σ) whole (Statement.expectKeyword code i word)
      (Statement.expectKeyword other j word)
      fun _ _ => i < code.size := by
  have hrefuse := tracks_refuse (σ := σ) (α := Unit) (β := Unit) (V := fun _ _ => i < code.size)
    h hj (.keywordExpected word)
  subst hj
  cases ht : code.tokens[i]? with
  | some t =>
    obtain ⟨place, hother⟩ := h.exists_token ht
    simp only [Statement.expectKeyword, ht, hother]
    exact Tracks.ite Iff.rfl (fun _ => Tracks.of_pure (Array.getElem?_eq_some_iff.1 ht).1)
      fun _ => hrefuse
  | none =>
    rcases h.none_or ht with hnone | hopen
    · simp only [Statement.expectKeyword, ht, hnone]
      exact hrefuse
    · refine Tracks.of_abandoned hopen fun a => ?_
      simp only [Statement.expectKeyword, Statement.refuse, ht]
      exact ⟨_, a, rfl⟩

theorem tracks_expectBound (h : Relocated whole offset code other) {i j stop stop' : Nat}
    (hj : j = i + offset) (hstop : stop' = stop + offset) (after : Keyword) :
    Tracks (σ := σ) whole (Statement.expectBound code i stop after)
      (Statement.expectBound other j stop' after) fun _ _ => stop ≠ i := by
  have hiff : stop = i ↔ stop' = j := by omega
  exact Tracks.ite hiff (fun _ => tracks_refuse h hj _) fun hne => Tracks.of_pure hne

/-! ## Blocks -/

theorem tracks_closeOf (h : Relocated whole offset code other) {i j : Nat} (hj : j = i + offset)
    (policy : BlockPolicy) :
    Tracks (σ := σ) whole (closeOf code i policy) (closeOf other j policy)
      fun close close' => close' = close + offset ∧ i < close ∧ close < code.size := by
  subst hj
  intro a b hab
  rw [run_closeOf, run_closeOf, hab.scans, hab.scans']
  simp only [Option.bind_none, Option.map_none]
  cases hclose : policy.close code.tokens i with
  | ok found =>
    rw [h.close_eq hclose]
    have hbounds := Code.ClosesAt.bounds ⟨found, hclose, rfl⟩
    exact ⟨⟨rfl, hbounds⟩, { hab with scans := rfl, scans' := rfl }⟩
  | error e =>
    cases hother : policy.close other.tokens (i + offset) with
    | error d =>
      intro hwhole
      obtain ⟨d', hd, hcause⟩ := h.exists_close_error hclose hwhole
      obtain rfl : d = d' := Except.error.inj (hother.symm.trans hd)
      exact ⟨hcause.symm, hab⟩
    | ok found =>
      intro hwhole
      obtain ⟨d, hd, -⟩ := h.exists_close_error hclose hwhole
      rw [hother] at hd
      cases hd

theorem tracks_elseEnd (h : Relocated whole offset code other) {i j : Nat} (hj : j = i + offset) :
    Tracks (σ := σ) whole (Statement.elseEnd code i) (Statement.elseEnd other j)
      fun close close' => close' = close + offset ∧ close < code.size := by
  refine Tracks.bind (tracks_closeOf h hj .elseClause) ?_
  rintro close close' ⟨hclose, -, hlt⟩
  refine Tracks.bind (tracks_tokenAt h hclose hlt) ?_
  rintro t u ⟨-, place, rfl⟩
  exact Tracks.ite Iff.rfl (fun _ => Tracks.of_pure ⟨hclose, hlt⟩) fun _ => Tracks.of_fail _ _ _

/-- A block of the code, and the same block of the other code. -/
structure Extent.Moved (code : Code) (offset : Nat) (extent extent' : Extent) : Prop where
  start : extent'.start = extent.start + offset
  stop : extent'.stop = extent.stop + offset
  inside : extent.stop ≤ code.size

/-- A clause of the code, and the same clause of the other code. -/
structure Statement.Clause.Moved (code : Code) (offset : Nat) (clause clause' : Statement.Clause) :
    Prop where
  condition : Option.Rel (IndexMoved code offset) clause.condition clause'.condition
  body : clause.body.Moved code offset clause'.body

/-- The clauses of `if`, by induction on what is left of the code. -/
theorem tracks_clauses (h : Relocated whole offset code other) {i j : Nat} (hj : j = i + offset)
    (hi : i < code.size) {found found' : Array Statement.Clause}
    (hfound : List.Forall₂ (Statement.Clause.Moved code offset) found.toList found'.toList) :
    Tracks (σ := σ) whole (Statement.clauses code i found) (Statement.clauses other j found')
      fun u v => List.Forall₂ (Statement.Clause.Moved code offset) u.1.toList v.1.toList ∧
        v.2 = u.2 + offset ∧ u.2 < code.size := by
  induction hleft : code.size - i using Nat.strongRecOn generalizing i j found found' with
  | ind left ih =>
    have hpush : ∀ {clause clause' : Statement.Clause}, clause.Moved code offset clause' →
        List.Forall₂ (Statement.Clause.Moved code offset) (found.push clause).toList
          (found'.push clause').toList := by
      intro clause clause' hclause
      rw [Array.toList_push, Array.toList_push]
      exact List.rel_append hfound (.cons hclause .nil)
    have hnext : j + 1 = i + 1 + offset := by omega
    rw [Statement.clauses, Statement.clauses]
    refine Tracks.bind (tracks_tokenAt h hj hi) ?_
    rintro t u ⟨-, place, rfl⟩
    refine Tracks.ite Iff.rfl (fun _ => ?_) fun _ => Tracks.ite Iff.rfl (fun _ => ?_) fun _ => ?_
    · refine Tracks.bind (tracks_closeOf h hj .conditional) ?_
      rintro close close' ⟨hclose, hlt, hsize⟩
      have hbounds : i < close ∧ close < code.size ↔ j < close' ∧ close' < other.size := by
        have := h.size_le
        omega
      refine Tracks.ite hbounds (fun _ => ?_) fun hout => absurd ⟨hlt, hsize⟩ hout
      refine ih _ (by omega) hclose hsize (hpush ⟨.some ⟨hnext, hi⟩, ?_⟩) rfl
      exact ⟨h.endFrom_eq hnext hi, hclose, Nat.le_of_lt hsize⟩
    · refine Tracks.bind (tracks_elseEnd h hj) ?_
      rintro close close' ⟨hclose, hlt⟩
      exact Tracks.of_pure ⟨hpush ⟨.none, ⟨hnext, hclose, Nat.le_of_lt hlt⟩⟩, hclose, hlt⟩
    · exact Tracks.of_pure ⟨hfound, hj, hi⟩

theorem tracks_loopElse (h : Relocated whole offset code other) {i j : Nat} (hj : j = i + offset)
    (hi : i < code.size) :
    Tracks (σ := σ) whole (Statement.loopElse code i) (Statement.loopElse other j)
      fun u v => Option.Rel (Extent.Moved code offset) u.1 v.1 ∧ v.2 = u.2 + offset ∧
        u.2 < code.size := by
  refine Tracks.bind (tracks_tokenAt h hj hi) ?_
  rintro t u ⟨-, place, rfl⟩
  refine Tracks.ite Iff.rfl (fun _ => ?_) fun _ => Tracks.of_pure ⟨.none, hj, hi⟩
  refine Tracks.bind (tracks_elseEnd h hj) ?_
  rintro close close' ⟨hclose, hlt⟩
  have hstart : j + 1 = i + 1 + offset := by omega
  exact Tracks.of_pure ⟨.some ⟨hstart, hclose, Nat.le_of_lt hlt⟩, hclose, hlt⟩

/-! ## Flows -/

/-- A loop of the code, and the same loop of the other code.  The line of the opener is a place. -/
structure Loop.Moved (code : Code) (offset : Nat) (loop loop' : Loop) : Prop where
  body : loop.body.Moved code offset loop'.body
  otherwise : Option.Rel (Extent.Moved code offset) loop.otherwise loop'.otherwise

/-- Flows with moved indices; all of them stay inside the code. -/
inductive Flow.Moved (code : Code) (offset : Nat) : Flow → Flow → Prop
  | advance {i j : Nat} : IndexMoved code offset i j → Moved code offset (.advance i) (.advance j)
  | enter {block block' : Extent} {i j : Nat} : block.Moved code offset block' →
    IndexMoved code offset i j → Moved code offset (.enter block i) (.enter block' j)
  | retest {condition condition' : Nat} {loop loop' : Loop} {i j : Nat} :
    IndexMoved code offset condition condition' → loop.Moved code offset loop' →
      IndexMoved code offset i j →
      Moved code offset (.retest condition loop i) (.retest condition' loop' j)
  | count (name : String) (first last : Int64) {loop loop' : Loop} {i j : Nat} :
    loop.Moved code offset loop' → IndexMoved code offset i j →
      Moved code offset (.count name first last loop i) (.count name first last loop' j)
  | call {body body' : Code} {i j : Nat} : body.shapes = body'.shapes → IndexMoved code offset i j →
    Moved code offset (.call body i) (.call body' j)
  | exit : Moved code offset .exit .exit

/-! ## Calls and definitions -/

theorem tracks_invoke (name : String) (span span' : Span) :
    Tracks (σ := σ) whole (Statement.invoke name span) (Statement.invoke name span')
      fun body body' => body.shapes = body'.shapes := by
  refine Tracks.bind_get fun a b hab => ?_
  rcases hab.context.get?_cases name with ⟨hnone, hnone'⟩ | ⟨body, body', hbody, hbody', hshapes⟩
  · simp only [hnone, hnone']
    exact Tracks.of_fail _ _ _
  · simp only [hbody, hbody', ← hab.context.callLimit, ← hab.context.depth]
    refine Tracks.ite Iff.rfl (fun _ => Tracks.of_fail _ _ _) fun _ => ?_
    refine Tracks.bind (tracks_changeContext fun _ _ hsimilar => ?_) fun _ _ _ => ?_
    · exact hsimilar.withDepth (· + 1)
    · exact Tracks.bind (tracks_note _ _) fun _ _ _ => Tracks.of_pure hshapes

theorem tracks_store (name : String) {body body' : Array Token}
    (hbody : body.toList.map Token.shape = body'.toList.map Token.shape) :
    Tracks (σ := σ) whole (store name body) (store name body') anyResults :=
  Tracks.of_modify fun _ _ hab => { hab with context := hab.context.define name hbody _ _ }

theorem tracks_forgetCloses : Tracks (σ := σ) whole forgetCloses forgetCloses anyResults := by
  refine Tracks.of_modify fun a b hab => { hab with scans := ?_, scans' := ?_ }
  · exact congrArg (Option.map fun _ => ∅) hab.scans
  · exact congrArg (Option.map fun _ => ∅) hab.scans'

theorem tracks_define (h : Relocated whole offset code other) {i j : Nat} (hj : j = i + offset)
    (hi : i < code.size) :
    Tracks (σ := σ) whole (Statement.define code i) (Statement.define other j)
      (Flow.Moved code offset) := by
  have hnext : j + 1 = i + 1 + offset := by omega
  unfold Statement.define
  rw [hnext]
  cases ht : code.tokens[i + 1]? with
  | none =>
    rcases h.none_or ht with hnone | hopen
    · simp only [hnone]
      exact Tracks.bind (tracks_tokenAt h hj hi) fun _ _ _ => Tracks.of_fail _ _ _
    · refine Tracks.of_abandoned hopen fun a => ?_
      simp only [tokenAt, Array.getElem?_eq_getElem hi, pure_bind]
      exact ⟨_, a, rfl⟩
  | some t =>
    obtain ⟨place, hother⟩ := h.exists_token ht
    simp only [hother, Token.identifier?_movedTo]
    cases t.identifier? with
    | none => exact Tracks.of_fail _ _ _
    | some name =>
      refine Tracks.bind (tracks_closeOf h hj .function) ?_
      rintro close close' ⟨hclose, hlt, hsize⟩
      have hbounds : i + 2 ≤ close ∧ close < code.size ↔ j + 2 ≤ close' ∧ close' < other.size := by
        have := h.size_le
        omega
      refine Tracks.ite hbounds (fun _ => ?_) fun _ => Tracks.of_throw trivial
      have hbody := h.shapes_extract (i + 2) (Nat.le_of_lt hsize)
      rw [show i + 2 + offset = j + 2 by omega, ← hclose] at hbody
      refine Tracks.bind (tracks_note _ _) fun _ _ _ => ?_
      refine Tracks.bind (tracks_store name hbody) fun _ _ _ => ?_
      refine Tracks.bind tracks_forgetCloses fun _ _ _ => ?_
      exact Tracks.of_pure (.advance ⟨by omega, hsize⟩)

theorem tracks_whileLoop (h : Relocated whole offset code other) {i j : Nat} (hj : j = i + offset)
    (hi : i < code.size) (line line' : Nat) :
    Tracks (σ := σ) whole (Statement.whileLoop code i line) (Statement.whileLoop other j line')
      (Flow.Moved code offset) := by
  have hcondition : IndexMoved code offset (i + 1) (j + 1) := ⟨by omega, hi⟩
  refine Tracks.bind (tracks_closeOf h hj .loop) ?_
  rintro close close' ⟨hclose, -, hlt⟩
  refine Tracks.bind (tracks_loopElse h hclose hlt) ?_
  rintro ⟨otherwise, stop⟩ ⟨otherwise', stop'⟩ ⟨hotherwise, hstop, hstopLt⟩
  have hnext : IndexMoved code offset (stop + 1) (stop' + 1) := ⟨by omega, hstopLt⟩
  have hbody := h.endFrom_eq hcondition.eq hcondition.inside
  exact Tracks.of_pure
    (.retest hcondition ⟨⟨hbody, hclose, Nat.le_of_lt hlt⟩, hotherwise⟩ hnext)

theorem tracks_assign (name : String) (value : Value) :
    Tracks (σ := σ) whole (changeContext fun context => context.assign name value)
      (changeContext fun context => context.assign name value) anyResults :=
  tracks_changeContext fun _ _ hsimilar => hsimilar.assign name value

/-- A statement that only notes something. -/
theorem tracks_noted (event event' : Event) {flow flow' : Flow} (h : flow.Moved code offset flow') :
    Tracks (σ := σ) whole
      (do
        note event
        pure flow)
      (do
        note event'
        pure flow')
      (Flow.Moved code offset) :=
  Tracks.bind (tracks_note event event') fun _ _ _ => Tracks.of_pure h

theorem tracks_invoke_call (name : String) (span span' : Span) {i j : Nat}
    (hij : IndexMoved code offset i j) :
    Tracks (σ := σ) whole
      (do
        let body ← Statement.invoke name span
        pure (Flow.call body i))
      (do
        let body ← Statement.invoke name span'
        pure (Flow.call body j))
      (Flow.Moved code offset) :=
  Tracks.bind (tracks_invoke name span span') fun _ _ hbody => Tracks.of_pure (.call hbody hij)

variable [Console σ]

/-! ## Talking to the console -/

theorem tracks_readLine (prompt : String) :
    Tracks (σ := σ) whole (readLine prompt) (readLine prompt) (· = ·) := by
  intro a b hab
  rw [run_readLine, run_readLine, ← hab.console]
  rcases Console.readLine prompt a.console with ⟨_ | _, console⟩
  · exact fun _ => ⟨rfl, { hab with console := rfl }⟩
  · exact ⟨rfl, { hab with console := rfl }⟩

theorem tracks_writeLine (line : String) :
    Tracks (σ := σ) whole (writeLine line) (writeLine line) anyResults := by
  intro a b hab
  rw [run_writeLine, run_writeLine, ← hab.console]
  rcases Console.writeLine line a.console with ⟨_ | _, console⟩
  · exact fun _ => ⟨rfl, { hab with console := rfl }⟩
  · exact ⟨trivial, { hab with console := rfl }⟩

/-- Failures of one cause are told in the same words. -/
theorem tracks_report {failure failure' : Failure} (h : failure.cause = failure'.cause) :
    Tracks (σ := σ) whole (report failure) (report failure') anyResults := by
  refine Tracks.bind (tracks_note _ _) fun _ _ _ => ?_
  have hmessage : failure.toError.message = failure'.toError.message := by
    simp only [Error.message, Failure.toError, h]
  rw [hmessage]
  exact tracks_writeLine _

theorem tracks_evaluate (h : Relocated whole offset code other) {i j : Nat}
    (hij : IndexMoved code offset i j) :
    Tracks (σ := σ) whole (evaluate code i) (evaluate other j) (· = ·) := by
  refine Tracks.bind_get fun a b hab => ?_
  rw [← hab.context.store]
  have hvalue := h.evaluateFrom_eq hij.eq hij.inside a.context.store
  revert hvalue
  cases Expression.evaluateFrom code.tokens i a.context.store with
  | ok value =>
    cases Expression.evaluateFrom other.tokens j a.context.store with
    | ok value' =>
      intro hvalue
      exact Tracks.of_pure (Except.ok.inj hvalue).symm
    | error failure' => exact nofun
  | error failure =>
    cases Expression.evaluateFrom other.tokens j a.context.store with
    | ok value' => exact nofun
    | error failure' =>
      intro hvalue
      have hcause := (Except.error.inj hvalue).symm
      exact Tracks.bind (tracks_report hcause) fun _ _ _ => Tracks.of_pure rfl

/-! ## Statements -/

theorem tracks_call (h : Relocated whole offset code other) {i j : Nat} (hj : j = i + offset) :
    Tracks (σ := σ) whole (Statement.call code i) (Statement.call other j)
      (Flow.Moved code offset) := by
  refine Tracks.bind (tracks_expectName h (show j + 1 = i + 1 + offset by omega) .exec) ?_
  rintro ⟨name, span⟩ ⟨-, span'⟩ ⟨rfl, hlt⟩
  have hij : IndexMoved code offset (i + 2) (j + 2) := ⟨by omega, hlt⟩
  refine Tracks.bind_get fun a b hab => ?_
  rcases hab.context.get?_cases name with ⟨hnone, hnone'⟩ | ⟨body, body', hbody, hbody', -⟩
  · simp only [hnone, hnone']
    refine Tracks.bind (tracks_report rfl) fun _ _ _ => ?_
    exact Tracks.of_pure (.advance hij)
  · simp only [hbody, hbody']
    exact tracks_invoke_call name span span' hij

theorem tracks_input (h : Relocated whole offset code other) {i j : Nat} (hj : j = i + offset) :
    Tracks (σ := σ) whole (Statement.input code i) (Statement.input other j)
      (Flow.Moved code offset) := by
  refine Tracks.bind (tracks_expectName h (show j + 1 = i + 1 + offset by omega) .input) ?_
  rintro ⟨name, span⟩ ⟨-, span'⟩ ⟨rfl, hlt⟩
  refine Tracks.bind (tracks_readLine _) ?_
  rintro line - rfl
  refine Tracks.bind (tracks_note _ _) fun _ _ _ => ?_
  refine Tracks.bind (tracks_assign name _) fun _ _ _ => ?_
  exact Tracks.of_pure (.advance ⟨by omega, hlt⟩)

theorem tracks_print (h : Relocated whole offset code other) {i j : Nat} (hj : j = i + offset)
    (hi : i < code.size) :
    Tracks (σ := σ) whole (Statement.print code i) (Statement.print other j)
      (Flow.Moved code offset) := by
  have hij : IndexMoved code offset (i + 1) (j + 1) := ⟨by omega, hi⟩
  have hstop := h.endFrom_eq hij.eq hij.inside
  have hempty : Expression.endFrom code.tokens (i + 1) = i + 1 ↔
      Expression.endFrom other.tokens (j + 1) = j + 1 := by omega
  refine Tracks.ite hempty (fun _ => ?_) fun _ => ?_
  · refine Tracks.bind (tracks_writeLine _) fun _ _ _ => ?_
    exact Tracks.of_pure (.advance hij)
  · refine Tracks.bind (tracks_evaluate h hij) ?_
    rintro value - rfl
    refine Tracks.bind (tracks_writeLine _) fun _ _ _ => ?_
    exact Tracks.of_pure (.advance ⟨hstop, Expression.endFrom_le _ _⟩)

/-- Whether `=` comes next is seen alike: what may follow the code is no `=`. -/
theorem Relocated.any_assignment (h : Relocated whole offset code other) {i j : Nat}
    (hij : IndexMoved code offset i j) :
    ((code.tokens[i]?).any fun t => t.kind = .assignment) =
      (other.tokens[j]?).any fun t => t.kind = .assignment := by
  obtain ⟨rfl, hi⟩ := hij
  cases ht : code.tokens[i]? with
  | some t =>
    obtain ⟨place, hother⟩ := h.exists_token ht
    rw [hother]
    rfl
  | none =>
    obtain rfl : i = code.size := Nat.le_antisymm hi (Array.getElem?_eq_none_iff.1 ht)
    rcases h.ends with hnone | ⟨t, hnewline, hkind⟩
    · rw [hnone]
    · simp [hnewline, hkind]

theorem tracks_named (h : Relocated whole offset code other) {i j : Nat} (hj : j = i + offset)
    (hi : i < code.size) (name : String) (span span' : Span) :
    Tracks (σ := σ) whole (Statement.named code i name span) (Statement.named other j name span')
      (Flow.Moved code offset) := by
  have hij : IndexMoved code offset (i + 1) (j + 1) := ⟨by omega, hi⟩
  have hassign := h.any_assignment hij
  refine Tracks.ite (by rw [hassign]) (fun hassignment => ?_) fun _ => ?_
  · have hlt : i + 1 < code.size := by
      by_contra hge
      rw [Array.getElem?_eq_none_iff.2 (Nat.le_of_not_lt hge)] at hassignment
      cases hassignment
    have hvalue : IndexMoved code offset (i + 2) (j + 2) := ⟨by omega, hlt⟩
    refine Tracks.bind (tracks_evaluate h hvalue) ?_
    rintro value - rfl
    refine Tracks.bind (tracks_note _ _) fun _ _ _ => ?_
    refine Tracks.bind (tracks_assign name value) fun _ _ _ => ?_
    exact Tracks.of_pure
      (.advance ⟨h.endFrom_eq hvalue.eq hvalue.inside, Expression.endFrom_le _ _⟩)
  · refine Tracks.bind_get fun a b hab => ?_
    rcases hab.context.get?_cases name with ⟨hnone, hnone'⟩ | ⟨body, body', hbody, hbody', -⟩
    · simp only [hnone, hnone']
      exact tracks_noted _ _ (.advance hij)
    · simp only [hbody, hbody']
      exact tracks_invoke_call name span span' hij

theorem tracks_firstTaken (h : Relocated whole offset code other)
    {clauses clauses' : List Statement.Clause}
    (hclauses : List.Forall₂ (Statement.Clause.Moved code offset) clauses clauses') :
    Tracks (σ := σ) whole (Statement.firstTaken code clauses) (Statement.firstTaken other clauses')
      (Option.Rel (Extent.Moved code offset)) := by
  induction hclauses with
  | nil => exact Tracks.of_pure .none
  | @cons clause clause' rest rest' hclause _ ih =>
    obtain ⟨condition, body⟩ := clause
    obtain ⟨condition', body'⟩ := clause'
    obtain ⟨hcondition, hbody⟩ := hclause
    cases hcondition with
    | none => exact Tracks.of_pure (.some hbody)
    | some hij =>
      refine Tracks.bind (tracks_evaluate h hij) ?_
      rintro value - rfl
      exact Tracks.ite Iff.rfl (fun _ => Tracks.of_pure (.some hbody)) fun _ => ih

theorem tracks_branch (h : Relocated whole offset code other) {i j : Nat} (hj : j = i + offset)
    (hi : i < code.size) :
    Tracks (σ := σ) whole (Statement.branch code i) (Statement.branch other j)
      (Flow.Moved code offset) := by
  refine Tracks.bind (tracks_clauses h hj hi .nil) ?_
  rintro ⟨found, stop⟩ ⟨found', stop'⟩ ⟨hfound, hstop, hlt⟩
  have hnext : IndexMoved code offset (stop + 1) (stop' + 1) := ⟨by omega, hlt⟩
  refine Tracks.bind (tracks_firstTaken h hfound) fun taken taken' htaken => ?_
  cases htaken with
  | none => exact Tracks.of_pure (.advance hnext)
  | some hbody => exact Tracks.of_pure (.enter hbody hnext)

theorem tracks_bound (h : Relocated whole offset code other) {i j : Nat}
    (hij : IndexMoved code offset i j) (anchor anchor' : Nat) (hsize : 0 < code.size) :
    Tracks (σ := σ) whole (Statement.bound code i anchor) (Statement.bound other j anchor')
      (· = ·) := by
  have hother : 0 < other.size := Nat.lt_of_lt_of_le hsize (by have := h.size_le; omega)
  -- the token at the anchor only lends its place
  have htoken : ∀ (code : Code) (anchor : Nat), 0 < code.size →
      ∃ t, tokenAt (σ := σ) code (min anchor (code.size - 1)) = pure t := by
    intro code anchor hsize
    have hlt : min anchor (code.size - 1) < code.tokens.size := by
      change _ < code.size
      omega
    refine ⟨code.tokens[min anchor (code.size - 1)], ?_⟩
    simp only [tokenAt, Array.getElem?_eq_getElem hlt]
  obtain ⟨t, ht⟩ := htoken code anchor hsize
  obtain ⟨u, hu⟩ := htoken other anchor' hother
  refine Tracks.bind (tracks_evaluate h hij) ?_
  rintro value - rfl
  cases value with
  | int n => exact Tracks.of_pure rfl
  | nothing => exact Tracks.of_pure rfl
  | float | bool | text =>
    simp only [ht, hu, pure_bind]
    exact Tracks.bind (tracks_report rfl) fun _ _ _ => Tracks.of_pure rfl

theorem tracks_forLoop (h : Relocated whole offset code other) {i j : Nat} (hj : j = i + offset)
    (hi : i < code.size) (line line' : Nat) :
    Tracks (σ := σ) whole (Statement.forLoop code i line) (Statement.forLoop other j line')
      (Flow.Moved code offset) := by
  have hsize : 0 < code.size := by omega
  refine Tracks.bind (tracks_expectName h (show j + 1 = i + 1 + offset by omega) .forLoop) ?_
  rintro ⟨name, span⟩ ⟨-, span'⟩ ⟨rfl, -⟩
  refine Tracks.bind (tracks_expectKeyword h (show j + 2 = i + 2 + offset by omega) .inBound) ?_
  intro _ _ hin
  have hfirst : IndexMoved code offset (i + 3) (j + 3) := ⟨by omega, hin⟩
  have hto := h.endFrom_eq hfirst.eq hfirst.inside
  refine Tracks.bind (tracks_expectKeyword h hto .toBound) ?_
  intro _ _ htoLt
  refine Tracks.bind (tracks_expectBound h hfirst.eq hto .inBound) fun _ _ _ => ?_
  have hlast : IndexMoved code offset (Expression.endFrom code.tokens (i + 3) + 1)
      (Expression.endFrom other.tokens (j + 3) + 1) := ⟨by omega, htoLt⟩
  have hbody := h.endFrom_eq hlast.eq hlast.inside
  refine Tracks.bind (tracks_expectBound h hlast.eq hbody .toBound) fun _ _ _ => ?_
  refine Tracks.bind (tracks_closeOf h hj .loop) ?_
  rintro close close' ⟨hclose, -, hlt⟩
  refine Tracks.bind (tracks_loopElse h hclose hlt) ?_
  rintro ⟨otherwise, stop⟩ ⟨otherwise', stop'⟩ ⟨hotherwise, hstop, hstopLt⟩
  have hnext : IndexMoved code offset (stop + 1) (stop' + 1) := ⟨by omega, hstopLt⟩
  refine Tracks.bind (tracks_bound h hfirst _ _ hsize) ?_
  rintro low - rfl
  cases low with
  | none => exact Tracks.of_pure (.advance hnext)
  | some low =>
    refine Tracks.bind (tracks_bound h hlast _ _ hsize) ?_
    rintro high - rfl
    cases high with
    | none => exact Tracks.of_pure (.advance hnext)
    | some high =>
      exact Tracks.of_pure
        (.count name low high ⟨⟨hbody, hclose, Nat.le_of_lt hlt⟩, hotherwise⟩ hnext)

/-- Every statement. -/
theorem tracks_execute (h : Relocated whole offset code other) {i j : Nat} (hj : j = i + offset)
    (hi : i < code.size) :
    Tracks (σ := σ) whole (Statement.execute code i) (Statement.execute other j)
      (Flow.Moved code offset) := by
  have hnext : Flow.Moved code offset (.advance (i + 1)) (.advance (j + 1)) :=
    .advance ⟨by omega, hi⟩
  refine Tracks.bind (tracks_tokenAt h hj hi) ?_
  rintro t u ⟨-, place, rfl⟩
  simp only [Token.kind_movedTo]
  cases t.kind with
  | newline => exact Tracks.of_pure hnext
  | identifier name => exact tracks_named h hj hi name _ _
  | keyword word =>
    cases word with
    | input => exact tracks_input h hj
    | print => exact tracks_print h hj hi
    | ifClause => exact tracks_branch h hj hi
    | whileLoop => exact tracks_whileLoop h hj hi _ _
    | forLoop => exact tracks_forLoop h hj hi _ _
    | func => exact tracks_define h hj hi
    | exec => exact tracks_call h hj
    | exit => exact tracks_noted _ _ .exit
    | elifClause | elseClause | endBlock | leave | inBound | toBound => exact tracks_noted _ _ hnext
  | operator _ | assignment | number _ | text _ => exact tracks_noted _ _ hnext

end TokenScript
