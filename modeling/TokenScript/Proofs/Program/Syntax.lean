import TokenScript.Token

/-!
# Programs as trees

A script has no syntax trees: it is executed from its tokens.  Well-formed scripts do have a shape,
though, and this file writes it down.  A `Block` is a list of statements, each followed by a line
end; a `Body` is what stands under a header, the line end of the header and a block; `Ending` and
`Branches` are what may follow the body of a loop and of an `if`:

    ending    :=  end  |  else body end
    branches  :=  elif run body branches  |  ending

The trees keep how every token is written and where it stands, so a tree determines its tokens, and
every way to write a well-formed script down, on any lines and columns, comes from a tree.

* `Statement`, `Block`, `Body`, `Ending`, `Branches`: the trees.
* `Statement.tokens`, `Block.tokens`, ...: the tokens of a tree, in order.
-/

namespace TokenScript.Program

/-- How a token is written, and where it stands. -/
structure Mark where
  lexeme : String
  span : Span
  deriving DecidableEq

namespace Mark

/-- The reserved word that is written like this. -/
def keyword (mark : Mark) (word : Keyword) : Token := ⟨.keyword word, mark.lexeme, mark.span⟩

/-- The `=` that is written like this. -/
def assignment (mark : Mark) : Token := ⟨.assignment, mark.lexeme, mark.span⟩

/-- The line end that is written like this. -/
def newline (mark : Mark) : Token := ⟨.newline, mark.lexeme, mark.span⟩

end Mark

/-- A name in a script. -/
structure Name where
  text : String
  mark : Mark
  deriving DecidableEq

/-- The token of a name. -/
def Name.token (name : Name) : Token := ⟨.identifier name.text, name.mark.lexeme, name.mark.span⟩

/-- An expression as statements see it: any tokens that can be part of one. -/
structure Run where
  tokens : List Token
  bearing : ∀ t ∈ tokens, t.isValueBearing = true

/-- A bound of a `for` loop, which has at least one token. -/
structure Bound extends Run where
  ne_nil : tokens ≠ []

mutual

/-- A statement, without the line end after it. -/
inductive Statement where
  | print (word : Mark) (run : Run)
  | assign (name : Name) (sign : Mark) (run : Run)
  | input (word : Mark) (name : Name)
  | exit (word : Mark)
  | exec (word : Mark) (name : Name)
  /-- A bare name. -/
  | call (name : Name)
  | branch (word : Mark) (condition : Run) (body : Body) (branches : Branches)
  | whileLoop (word : Mark) (condition : Run) (body : Body) (ending : Ending)
  | forLoop (word : Mark) (name : Name) (inWord : Mark) (first : Bound) (toWord : Mark)
      (last : Bound) (body : Body) (ending : Ending)
  | func (word : Mark) (name : Name) (body : Body) (leave : Mark)

/-- Statements, each with the line end after it. -/
inductive Block where
  | nil
  | cons (statement : Statement) (eol : Mark) (rest : Block)

/-- What stands under a header: the line end of the header, and a block. -/
inductive Body where
  | mk (eol : Mark) (block : Block)

/-- What follows the last body of a construct: `end`, or an `else` clause and `end`. -/
inductive Ending where
  | close (word : Mark)
  | otherwise (word : Mark) (body : Body) (close : Mark)

/-- What follows the first body of an `if`. -/
inductive Branches where
  | elif (word : Mark) (condition : Run) (body : Body) (rest : Branches)
  | last (ending : Ending)

end

mutual

/-- The tokens of a statement. -/
def Statement.tokens : Statement → List Token
  | .print word run => word.keyword .print :: run.tokens
  | .assign name sign run => name.token :: sign.assignment :: run.tokens
  | .input word name => [word.keyword .input, name.token]
  | .exit word => [word.keyword .exit]
  | .exec word name => [word.keyword .exec, name.token]
  | .call name => [name.token]
  | .branch word condition body branches =>
    word.keyword .ifClause :: (condition.tokens ++ (body.tokens ++ branches.tokens))
  | .whileLoop word condition body ending =>
    word.keyword .whileLoop :: (condition.tokens ++ (body.tokens ++ ending.tokens))
  | .forLoop word name inWord first toWord last body ending =>
    word.keyword .forLoop :: name.token :: inWord.keyword .inBound :: (first.tokens ++
      toWord.keyword .toBound :: (last.tokens ++ (body.tokens ++ ending.tokens)))
  | .func word name body leave =>
    word.keyword .func :: name.token :: (body.tokens ++ [leave.keyword .leave])

/-- The tokens of a block. -/
def Block.tokens : Block → List Token
  | .nil => []
  | .cons statement eol rest => statement.tokens ++ eol.newline :: rest.tokens

/-- The tokens of a body. -/
def Body.tokens : Body → List Token
  | .mk eol block => eol.newline :: block.tokens

/-- The tokens of an ending. -/
def Ending.tokens : Ending → List Token
  | .close word => [word.keyword .endBlock]
  | .otherwise word body close =>
    word.keyword .elseClause :: (body.tokens ++ [close.keyword .endBlock])

/-- The tokens of the branches after the first. -/
def Branches.tokens : Branches → List Token
  | .elif word condition body rest =>
    word.keyword .elifClause :: (condition.tokens ++ (body.tokens ++ rest.tokens))
  | .last ending => ending.tokens

end

/-- The block of a body. -/
def Body.block : Body → Block
  | .mk _ block => block

end TokenScript.Program
