import OnePass.CommandLine

/-!
The program itself: read, run, write.
-/

namespace OnePass

/-- Read bytes up to the first line end or the end of the input. -/
partial def readLineBytes (input : IO.FS.Stream) (read : ByteArray) : IO ByteArray := do
  let chunk ← input.read 4096
  if chunk.isEmpty || chunk.data.contains '\n'.toUInt8 then return read ++ chunk
  else readLineBytes input (read ++ chunk)

end OnePass

def main (arguments : List String) : IO UInt32 := do
  let input ←
    if arguments.isEmpty then OnePass.readLineBytes (← IO.getStdin) ByteArray.empty
    else pure ByteArray.empty
  let exit := OnePass.CommandLine.run arguments input
  (← IO.getStdout).putStr exit.out
  (← IO.getStderr).putStr exit.err
  return exit.code.toUInt32
