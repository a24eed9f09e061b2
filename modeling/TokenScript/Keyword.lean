/-!
# Reserved words

The language has fourteen reserved words.  Three of them open a block that `end` closes; `func`
opens a body that `leave` closes.  The words are listed once, in `Keyword.all`, and the spelling of
each is a function, so that looking a word up is a search of that list.

A word that is spelled like one of Lean's own is named here for what it does.
-/

namespace TokenScript

/-- A reserved word. -/
inductive Keyword where
  | input
  | print
  | exec
  | func
  | forLoop
  | whileLoop
  | ifClause
  | elseClause
  | exit
  | elifClause
  | leave
  | endBlock
  | inBound
  | toBound
  deriving DecidableEq, Repr

namespace Keyword

/-- Every reserved word, in the order in which the language declares them. -/
def all : List Keyword :=
  [input, print, exec, func, forLoop, whileLoop, ifClause, elseClause, exit, elifClause, leave,
    endBlock, inBound, toBound]

theorem mem_all (k : Keyword) : k ∈ all := by
  cases k <;> decide

/-- How the word is written in a script. -/
def spelling : Keyword → String
  | input => "input"
  | print => "print"
  | exec => "exec"
  | func => "func"
  | forLoop => "for"
  | whileLoop => "while"
  | ifClause => "if"
  | elseClause => "else"
  | exit => "exit"
  | elifClause => "elif"
  | leave => "leave"
  | endBlock => "end"
  | inBound => "in"
  | toBound => "to"

/-- The name under which a JSON record files the word. -/
def label : Keyword → String
  | input => "Input"
  | print => "Print"
  | exec => "Exec"
  | func => "Func"
  | forLoop => "For"
  | whileLoop => "While"
  | ifClause => "If"
  | elseClause => "Else"
  | exit => "Exit"
  | elifClause => "Elif"
  | leave => "Leave"
  | endBlock => "End"
  | inBound => "In"
  | toBound => "To"

/-- The reserved word with this exact spelling. -/
def ofSpelling? (word : String) : Option Keyword :=
  all.find? (·.spelling = word)

/-- Whether the word opens a block that `end` closes. -/
def opensBlock : Keyword → Bool
  | ifClause | whileLoop | forLoop => true
  | _ => false

end Keyword
end TokenScript
