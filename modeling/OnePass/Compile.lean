import OnePass.Parse.Run

/-!
Compilation of a whole source.
-/

namespace OnePass

/-- All that a successful compilation yields. -/
structure Compilation where
  assembly : Assembly
  symbols : SymbolTable
  skipped : List Skipped
  statements : Nat
  deriving DecidableEq, Repr

/-- Compile a source.  A failure leaves nothing behind. -/
def compile (source : String) (options : Options) : Except Failure Compilation :=
  match parse (Lexer.new source) (Context.new source) with
  | .failed f _ => .error f
  | .ok statements (lexer, context) =>
    match context.finish options with
    | .error e => .error (.error e)
    | .ok (assembly, symbols) =>
      .ok { assembly, symbols, skipped := lexer.skipped, statements }

/-- The assembly text of a source, under the usual entry. -/
def generate (source : String) : Except Failure String :=
  (compile source {}).map fun compilation => compilation.assembly.render

end OnePass
