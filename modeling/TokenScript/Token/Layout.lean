import TokenScript.Token

/-!
# Tokens written back

The plain layout of a list of tokens puts one space between neighbours on a line and a line feed for
every line end.  Reading the layout again gives the same tokens, at places of their own.
-/

namespace TokenScript.Token

/-- The pieces of the layout, in reverse; `fresh` says that the line has no token yet. -/
def layoutPieces : List Token → Bool → List String → List String
  | [], _, pieces => pieces
  | t :: rest, fresh, pieces =>
    match t.kind with
    | .newline => layoutPieces rest true ("\n" :: pieces)
    | _ =>
      let spaced := if fresh then pieces else " " :: pieces
      layoutPieces rest false (t.lexeme :: spaced)

/-- The plain layout of a list of tokens. -/
def layout (tokens : List Token) : String :=
  String.join (layoutPieces tokens true []).reverse

end TokenScript.Token
