import TokenScript.Main
import TokenScript.Proofs.Frames
import TokenScript.Proofs.Steps
import TokenScript.Proofs.Memo.Invisible
import TokenScript.Proofs.Program.Layout
import TokenScript.Proofs.Program.Semantics
import TokenScript.Token.Record
import TokenScript.Proofs.Program.Heads
import TokenScript.Proofs.Program.Refinement
import TokenScript.Proofs.Expression.Grammar
import TokenScript.Proofs.Expression.Reader
import TokenScript.Proofs.Token.Relayout
import TokenScript.Proofs.CallDepth
import TokenScript.Proofs.Relocation.Code
import TokenScript.Proofs.Relocation.Statements
import TokenScript.Proofs.Relocation.Runs
import TokenScript.Proofs.Relocation.Joined
import TokenScript.Proofs.Escapes
import TokenScript.Proofs.Token.LongestMatch
import TokenScript.Proofs.Token.Reading
import TokenScript.Proofs.Token.Coverage
import TokenScript.Proofs.Progress
import TokenScript.Proofs.Termination
import TokenScript.Proofs.WordSteps
import TokenScript.Proofs.Bounds
import TokenScript.Proofs.Expression.Names
import TokenScript.Proofs.Growth
import TokenScript.Proofs.Lockstep.Statements
import TokenScript.Proofs.CallLimits
import TokenScript.Proofs.Truncation
import TokenScript.Proofs.Locality
import TokenScript.Proofs.Lockstep.Runs
import TokenScript.Proofs.Block.Matching
import TokenScript.Proofs.Block.Surface
import TokenScript.Proofs.Block.Clauses
import TokenScript.Proofs.Block.Bodies
import TokenScript.Proofs.CommandLine
import TokenScript.Proofs.Operation.Integers
import TokenScript.Proofs.Operation.Floats
import TokenScript.Proofs.Operation.Comparison
import TokenScript.Proofs.Form
import TokenScript.Proofs.Places
import TokenScript.Proofs.Counting
import TokenScript.Proofs.Diagnostic.Lines
import TokenScript.Proofs.Diagnostic.Caret
import TokenScript.Proofs.Decimal.Grammar
import TokenScript.Proofs.Input
import TokenScript.Proofs.ReadBack
import TokenScript.Proofs.CallSetting
import TokenScript.Proofs.Block.Extents
import TokenScript.Proofs.Expression.Descent
import TokenScript.Proofs.Decimal.Shortest
import TokenScript.Proofs.PrintedFloats
import TokenScript.Proofs.Memo.Stretches
