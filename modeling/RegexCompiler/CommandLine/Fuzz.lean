import RegexCompiler.CommandLine.Outcome
import RegexCompiler.Fuzzer
import RegexCompiler.Random.Generator

namespace RegexCompiler.CommandLine

def fuzzHelp : String :=
  "Checks that the NFA and the DFA of random regexes agree.\n\n" ++
  "Arguments: [--iterations N] [--seed N] [--max-len N] [--depth N] [--charset SYMBOLS]\n"

structure FuzzOptions where
  iterations : Nat := 1000
  seed : Option Nat := none
  maxLength : Nat := 5
  depth : Nat := 4
  charset : String := "abc"

namespace FuzzOptions

def usage : Usage where
  options :=
    let isNumber (text : String) : Bool := (number? text).isSome
    [.restricted "iterations" isNumber, .restricted "seed" isNumber, .restricted "max-len" isNumber,
      .restricted "depth" isNumber, .text "charset"]

def ofArguments (arguments : Arguments) : FuzzOptions :=
  let default : FuzzOptions := {}
  let number (name : String) : Option Nat := (arguments.values name).head?.bind number?
  { iterations := (number "iterations").getD default.iterations
    seed := number "seed"
    maxLength := (number "max-len").getD default.maxLength
    depth := (number "depth").getD default.depth
    charset := arguments.value "charset" default.charset }

def charsetError? (options : FuzzOptions) : Option String :=
  let alphabet : Alphabet := {}
  if options.charset.isEmpty then some "the charset can not be empty"
  else
    (options.charset.toList.find? fun c ↦ !alphabet.isSymbol c).map fun c ↦
      s!"'{c}' is not a symbol of the alphabet"

def fuzzer (options : FuzzOptions) : Fuzzer where
  iterations := options.iterations
  maxLength := options.maxLength
  depth := options.depth
  charset := options.charset.toList

variable {γ : Type} [RandomSource γ]

/-- Runs the fuzzer on the random source of a seed, which is the default one if the options give none. -/
def run (options : FuzzOptions) (overflowChecks : Bool) (ofSeed : Nat → γ) (defaultSeed : Nat) : Outcome :=
  match options.charsetError? with
  | some message => .failure message
  | none =>
    let seed := options.seed.getD defaultSeed
    match ((options.fuzzer.run overflowChecks).run (ofSeed seed)).1 with
    | none => { status := 101 }
    | some (.error (source, mismatch)) =>
      let cause := mismatch.message source
      .failure s!"mismatch with seed {seed}\n\nCaused by:\n    {cause}"
    | some (.ok tally) =>
      { stdout := s!"{options.iterations} regexes, {tally.rejected.toInt} rejected, " ++
          s!"{tally.compared.toNat} strings compared (seed {seed})\n" }

end FuzzOptions

def fuzz (texts : List String) (defaultSeed : Nat) (overflowChecks : Bool := true) : Outcome :=
  match Arguments.ofStrings FuzzOptions.usage texts with
  | .error error => .ofUsageError fuzzHelp "" error
  | .ok arguments => (FuzzOptions.ofArguments arguments).run overflowChecks Generator.ofSeed defaultSeed

end RegexCompiler.CommandLine
