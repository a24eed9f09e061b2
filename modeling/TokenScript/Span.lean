/-!
# Places in a source text

A `Span` is the place where something starts: a line counted from one and a column counted from
zero, in characters.  It is the only notion of place in the library.  Tokens carry one, errors carry
one, and the reader of a source text moves one forward as it goes.

The place `0:0` lies in no text.  It stands for "no place" in errors that come from outside the
script, such as a console that has gone away.
-/

namespace TokenScript

/-- A place in a source text: a line counted from one and a column counted from zero. -/
structure Span where
  line : Nat
  column : Nat
  deriving DecidableEq, Repr, Inhabited

namespace Span

/-- The place that lies in no text. -/
def nowhere : Span := ⟨0, 0⟩

/-- The first place of every text. -/
def start : Span := ⟨1, 0⟩

/-- The place just after one character: a line feed starts a new line, every other character takes
one column. -/
def step (here : Span) (c : Char) : Span :=
  if c = '\n' then ⟨here.line + 1, 0⟩ else ⟨here.line, here.column + 1⟩

/-- The place just after a stretch of text. -/
def after (here : Span) (text : List Char) : Span := text.foldl step here

@[simp] theorem after_nil (here : Span) : here.after [] = here := rfl

@[simp] theorem after_cons (here : Span) (c : Char) (text : List Char) :
    here.after (c :: text) = (here.step c).after text := rfl

theorem after_append (here : Span) (first second : List Char) :
    here.after (first ++ second) = (here.after first).after second := by
  simp [after, List.foldl_append]

/-- The place as people write it, with columns counted from one. -/
def render (place : Span) : String :=
  toString place.line ++ ":" ++ toString (place.column + 1)

end Span
end TokenScript
