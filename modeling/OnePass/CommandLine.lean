import OnePass.Compile

/-!
The command line, as a function from arguments and input to what is written and the
exit code.
-/

namespace OnePass
namespace CommandLine

/-- The name of the program itself, by which its log lines go. -/
def ownName : String := "rexprc"

/-- What a run of the program leaves. -/
structure Exit where
  code : UInt8
  out : String := ""
  err : String := ""
  deriving DecidableEq, Repr

/-- The first line of the input, without its end, if it is text. -/
def firstLine? (input : ByteArray) : Option String :=
  String.fromUTF8? (ByteArray.mk (input.data.takeWhile (· != '\n'.toUInt8)))

/-- Take line ends off the end of a line. -/
def trimLineEnd (line : String) : String :=
  String.ofList (line.toList.reverse.dropWhile fun c => c == '\r' || c == '\n').reverse

/-- The log line of a skipped character. -/
def warning (s : Skipped) : String :=
  s!" WARN {ownName}::tokenizer: skipping unexpected character loc={s.loc} ch={s.char}\n"

/-- Compile a source and tell how it went.  Characters that were skipped before a
failure are told of before it. -/
def compileSource (source : String) : Exit :=
  let lexer := (parse (Lexer.new source) (Context.new source)).state.1
  let log := String.join (lexer.skipped.map warning)
  match compile source {} with
  | .ok compilation => { code := 0, out := compilation.assembly.render ++ "\n", err := log }
  | .error (.error e) =>
    if e.isInternal then
      { code := 2, err := log ++ s!"ERROR {ownName}: compiler bug err={e.message}\n" }
    else { code := 1, err := log ++ e.message ++ "\n" }
  | .error .offBoundary => { code := 101, err := log }

/-- Run the program.  Its source is the one argument, or else the first line of the
input.  `program` is the name it was called by, which its own complaints go by. -/
def run (arguments : List String) (input : ByteArray) (program : String := ownName) : Exit :=
  match arguments with
  | [] =>
    match firstLine? input with
    | some line => compileSource (trimLineEnd line)
    | none =>
      { code := 1
        err := s!"{program}: failed to read standard input: " ++
          "stream did not contain valid UTF-8\n" }
  | [source] => compileSource source
  | _ => { code := 1, err := s!"usage: {program} [<program>]\n" }

end CommandLine
end OnePass
