import Mathlib.Data.List.Basic
import TokenScript.Expression
import TokenScript.Proofs.Token.Relayout

/-!
# Expressions without places

Tokens carry their places so that a failure can be blamed on one of them.  Nothing else is made of
the places: forgetting them in the tokens of an expression, and in everything that the reader keeps
while it reads, changes nothing in the value, and nothing in a failure but its place.

Forgetting is a function on each kind of data that holds places, and each function of the reader has
one equation that says how it commutes with forgetting.

* `Token.unplaced`, `Failure.unplaced`, `Pending.unplaced`, `Enclosing.unplaced`: forgetting places.
* `Phrase.read_unplaced`: reading commutes with forgetting.
* `Expression.evaluate_congr`: expressions with the same tokens up to places have the same value, or
  fail for the same cause.
-/

namespace TokenScript

/-- The token without its place. -/
def Token.unplaced (t : Token) : Token := { t with span := .nowhere }

/-- The failure without its place. -/
def Failure.unplaced (f : Failure) : Failure := { f with span := .nowhere }

/-- A waiting operator without its place. -/
def Pending.unplaced : Pending → Pending
  | .binary level op _ left => .binary level op .nowhere left
  | .sign op _ => .sign op .nowhere
  | .power _ base => .power .nowhere base

/-- An open parenthesis without places. -/
def Enclosing.unplaced (enclosing : Enclosing) : Enclosing :=
  ⟨.nowhere, enclosing.waiting.map Pending.unplaced⟩

namespace Token

@[simp] theorem kind_unplaced (t : Token) : t.unplaced.kind = t.kind := rfl

@[simp] theorem span_unplaced (t : Token) : t.unplaced.span = .nowhere := rfl

@[simp] theorem shown_unplaced (t : Token) : t.unplaced.shown = t.shown := rfl

@[simp] theorem operator?_unplaced (t : Token) : t.unplaced.operator? = t.operator? := rfl

theorem map_unplaced_of_shape {tokens others : List Token}
    (h : tokens.map shape = others.map shape) : tokens.map unplaced = others.map unplaced := by
  have hunplaced : unplaced = (fun s : TokenKind × String => ⟨s.1, s.2, .nowhere⟩) ∘ shape := rfl
  rw [hunplaced, ← List.map_map, ← List.map_map, h]

end Token

/-- The result of an operator or of settling, without the place of a failure. -/
def Failure.forget {α : Type} (result : Except Failure α) : Except Failure α :=
  result.mapError Failure.unplaced

namespace Pending

@[simp] theorem bindsAtLeast_unplaced (p : Pending) (level : Nat) :
    p.unplaced.bindsAtLeast level = p.bindsAtLeast level := by
  cases p <;> rfl

theorem apply_unplaced (p : Pending) (right : Value) :
    p.unplaced.apply right = Failure.forget (p.apply right) := by
  cases p with
  | binary level op span left =>
    simp only [unplaced, apply, Failure.forget]
    cases op.apply left right <;> rfl
  | sign op span =>
    simp only [unplaced, apply, Failure.forget]
    cases op.applySign right <;> rfl
  | power span base =>
    simp only [unplaced, apply, Failure.forget]
    cases Operator.power.apply base right <;> rfl

end Pending

/-- What settling comes to, without places. -/
def settledUnplaced : Except Failure (Value × List Pending) → Except Failure (Value × List Pending)
  | .error f => .error f.unplaced
  | .ok (value, still) => .ok (value, still.map Pending.unplaced)

theorem settle_unplaced (level : Nat) (value : Value) (waiting : List Pending) :
    settle level value (waiting.map Pending.unplaced) =
      settledUnplaced (settle level value waiting) := by
  induction waiting generalizing value with
  | nil => rfl
  | cons p waiting ih =>
    simp only [List.map_cons, settle, Pending.bindsAtLeast_unplaced, Pending.apply_unplaced]
    split
    · cases p.apply value with
      | ok applied => exact ih applied
      | error f => rfl
    · rfl

/-- What reading comes to, without places. -/
def readUnplaced : Except Failure (Value × List Token) → Except Failure (Value × List Token)
  | .error f => .error f.unplaced
  | .ok (value, rest) => .ok (value, rest.map Token.unplaced)

/-- Reading commutes with forgetting places. -/
theorem Phrase.read_unplaced (phrase : Phrase) (store : Store) (last : Span) (value : Option Value)
    (waiting : List Pending) (outer : List Enclosing) (tokens : List Token) :
    phrase.read store .nowhere value (waiting.map Pending.unplaced) (outer.map Enclosing.unplaced)
        (tokens.map Token.unplaced) =
      readUnplaced (phrase.read store last value waiting outer tokens) := by
  induction tokens generalizing value waiting outer with
  | nil =>
    cases value with
    | none => rfl
    | some value =>
      simp only [List.map_nil, read, settle_unplaced]
      cases settle 0 value waiting with
      | error f => rfl
      | ok settled => cases outer <;> rfl
  | cons t rest ih =>
    cases value with
    | none =>
      simp only [List.map_cons, read, Token.kind_unplaced, Token.span_unplaced,
        Token.shown_unplaced, List.isEmpty_map]
      cases t.kind with
      | number n => exact ih _ _ _
      | text contents => exact ih _ _ _
      | identifier name =>
        simp only
        cases store.get? name with
        | some value => exact ih _ _ _
        | none => rfl
      | operator op =>
        simp only
        split
        · exact ih none [] (⟨t.span, waiting⟩ :: outer)
        · split
          · exact ih none (.sign op t.span :: waiting) outer
          · rfl
      | keyword _ | assignment | newline => rfl
    | some value =>
      rw [List.map_cons, read, read]
      simp only [List.isEmpty_map, settle_unplaced]
      rw [Token.operator?_unplaced, Token.span_unplaced]
      generalize t.operator? = op?
      split
      · exact ih none (.power t.span value :: waiting) outer
      · cases op?.bind fun op => op.level?.map fun level => (op, level) with
        | some found =>
          obtain ⟨op, level⟩ := found
          simp only
          cases settle level value waiting with
          | error f => rfl
          | ok settled =>
            obtain ⟨applied, still⟩ := settled
            simp only [settledUnplaced, List.isEmpty_map]
            split
            · exact ih none (.binary level op t.span applied :: still) outer
            · rfl
        | none =>
          simp only
          cases settle 0 value waiting with
          | error f => rfl
          | ok settled =>
            obtain ⟨applied, still⟩ := settled
            simp only [settledUnplaced]
            cases outer with
            | nil => rfl
            | cons enclosing further =>
              simp only [List.map_cons]
              split
              · exact ih (some applied) enclosing.waiting further
              · rfl

namespace Expression

/-- Evaluation commutes with forgetting places. -/
theorem evaluate_unplaced (store : Store) (run : List Token) :
    evaluate store (run.map Token.unplaced) = (evaluate store run).mapError Failure.unplaced := by
  simp only [evaluate, List.isEmpty_map]
  split
  · rfl
  · have hlast : lastSpan (run.map Token.unplaced) = .nowhere := by
      rw [lastSpan, List.getLast?_map]
      cases run.getLast? <;> rfl
    have hread := Phrase.read_unplaced Phrase.expression store (lastSpan run) none [] [] run
    simp only [List.map_nil] at hread
    rw [hlast, hread]
    rcases Phrase.expression.read store (lastSpan run) none [] [] run with f | ⟨value, rest⟩
    · rfl
    · cases rest <;> rfl

/-- Expressions with the same tokens up to their places have the same value, or fail for the same
cause. -/
theorem evaluate_congr {run other : List Token} (h : run.map Token.shape = other.map Token.shape)
    (store : Store) :
    (evaluate store run).mapError Failure.cause =
      (evaluate store other).mapError Failure.cause := by
  have hforget : ∀ result : Except Failure Value,
      result.mapError Failure.cause =
        (result.mapError Failure.unplaced).mapError Failure.cause := by
    rintro (_ | _) <;> rfl
  rw [hforget, hforget (evaluate store other), ← evaluate_unplaced, ← evaluate_unplaced,
    Token.map_unplaced_of_shape h]

end Expression
end TokenScript
