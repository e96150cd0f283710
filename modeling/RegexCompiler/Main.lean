import RegexCompiler.CommandLine.Compile
import RegexCompiler.CommandLine.Fuzz

open RegexCompiler

/-- Everything a stream still holds. -/
partial def readAll (stream : IO.FS.Stream) (start : List UInt8) : IO (List UInt8) := do
  let chunk ← stream.read 65536
  if chunk.isEmpty then return start
  readAll stream (start ++ chunk.toList)

/-- Compiles; after `--fuzz` as the first argument the rest are those of the fuzzer. -/
def main (texts : List String) : IO UInt32 := do
  let outcome ← match texts with
    | "--fuzz" :: texts => do
      let now ← IO.monoMsNow
      pure (CommandLine.fuzz texts now)
    | texts => do
      let stdin ← if CommandLine.readsInput texts then readAll (← IO.getStdin) [] else pure []
      pure (CommandLine.compile texts stdin)
  IO.print outcome.stdout
  IO.eprint outcome.stderr
  return outcome.status.toUInt32
