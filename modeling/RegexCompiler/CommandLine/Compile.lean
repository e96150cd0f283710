import RegexCompiler.CommandLine.Options
import RegexCompiler.CommandLine.Outcome
import RegexCompiler.Text.Lines

namespace RegexCompiler.CommandLine

def compileHelp : String :=
  "Compiles a regular expression into an NFA, a DFA and a PDA.\n\n" ++
  "Arguments: [REGEX] [--no-digits] [--pda] [--push SYMBOLS] [--pop SYMBOLS] [--pass SYMBOLS]\n" ++
  "  [--format text|json]\n\n" ++
  "Without REGEX, every line of the standard input is compiled.\n"

def compileVersion : String := "0.1.0\n"

def outcomeOf (format : Format) (source : String) : Except CompileError Compilation → Outcome
  | .ok compilation => { stdout := Report.text format source compilation }
  | .error error =>
    { status := 1
      stderr := s!"Err: {Text.quoted source} failed during {error.stage.name}: {error.message}\n" }

def isBlankLine (line : String) : Bool := line.toList.all Text.isBlank

def unreadable : Outcome :=
  .failure "failed to read stdin\n\nCaused by:\n    stream did not contain valid UTF-8"

/-- The outcomes for the lines of the input that are not blank, up to the first that is not text. -/
def batch (format : Format) (compiler : Compiler) : List (List UInt8) → List Outcome
  | [] => []
  | line :: rest =>
    match Text.decode line with
    | none => [unreadable]
    | some source =>
      if isBlankLine source then batch format compiler rest
      else
        let (result, compiler) := compiler.compile source
        outcomeOf format source result :: batch format compiler rest

def Options.run (options : Options) (stdin : List UInt8) : Outcome :=
  match options.config with
  | .error error => .failure error.message
  | .ok config =>
    match options.regex with
    | some source => outcomeOf options.format source ({ config : Compiler }.compile source).1
    | none => .join (batch options.format { config } (Text.splitLines stdin))

def compile (texts : List String) (stdin : List UInt8) : Outcome :=
  match Options.ofStrings texts with
  | .error error => .ofUsageError compileHelp compileVersion error
  | .ok options => options.run stdin

def readsInput (texts : List String) : Bool :=
  match Options.ofStrings texts with
  | .error _ => false
  | .ok options => options.regex.isNone

end RegexCompiler.CommandLine
