import OnePass.Text
import OnePass.Operator
import OnePass.Value
import OnePass.Marker
import OnePass.Error
import OnePass.Token
import OnePass.Token.Scan
import OnePass.Lexer
import OnePass.ByteLexer
import OnePass.Symbols
import OnePass.Instruction
import OnePass.Assembly
import OnePass.Context
import OnePass.Production
import OnePass.Parse.Stack
import OnePass.Parse.Decision
import OnePass.Parse.Run
import OnePass.Compile
import OnePass.Event
import OnePass.Session
import OnePass.CommandLine
import OnePass.Main
import OnePass.Expr
import OnePass.Expr.Meaning
import OnePass.Machine
import OnePass.Processor
import OnePass.Grammar
import OnePass.Derivation
import OnePass.Proofs.Lexing
import OnePass.Proofs.ByteLexing
import OnePass.Proofs.Outline
import OnePass.Proofs.Tracking
import OnePass.Proofs.Course
import OnePass.Proofs.Scope
import OnePass.Proofs.Preservation
import OnePass.Proofs.Acceptance
import OnePass.Proofs.Failing
import OnePass.Proofs.Internal
import OnePass.Proofs.Likeness
import OnePass.Proofs.Viable
import OnePass.Proofs.Frame
import OnePass.Proofs.Refusal
import OnePass.Proofs.Exactness
import OnePass.Proofs.Rounding
import OnePass.Proofs.Lockstep
import OnePass.Proofs.Counterparts
import OnePass.Proofs.Composition
import OnePass.Proofs.Renaming
import OnePass.Proofs.Listing
import OnePass.Proofs.Spans
import OnePass.Proofs.LongestMatch
import OnePass.Proofs.Layout
import OnePass.Proofs.Resumption
import OnePass.Proofs.Actions
import OnePass.Proofs.RightParse
import OnePass.Proofs.MoveBound
import OnePass.Proofs.CheckedArithmetic
import OnePass.Proofs.Numbering
import OnePass.Proofs.Blame
import OnePass.Proofs.Interruption
