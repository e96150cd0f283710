import RegexCompiler.CommandLine.Arguments
import RegexCompiler.Compiler
import RegexCompiler.Report

namespace RegexCompiler.CommandLine

structure Options where
  regex : Option String := none
  format : Format := .text
  digits : Bool := true
  pda : Bool := false
  push : String := ""
  pop : String := ""
  pass : String := ""
deriving DecidableEq

inductive ConfigError where
  | notASymbol (c : Char)
  | givenBoth (c : Char) (first second : StackAction)
deriving DecidableEq

namespace ConfigError

def actionName : StackAction → String
  | .push => "Push"
  | .pop => "Pop"
  | .passThrough => "PassThrough"

def message : ConfigError → String
  | notASymbol c => s!"'{c}' is not a symbol of the alphabet"
  | givenBoth c first second => s!"'{c}' is given both {actionName first} and {actionName second}"

end ConfigError

namespace Options

def usage : Usage where
  options := [.flag "no-digits", .flag "pda", .text "push", .text "pop", .text "pass",
    .restricted "format" fun value ↦ value = "text" || value = "json"]
  plainArguments := 1
  hasVersion := true

def ofArguments (arguments : Arguments) : Options where
  regex := arguments.plain.head?
  format := if arguments.value "format" "text" = "json" then .json else .text
  digits := !arguments.isGiven "no-digits"
  pda := arguments.isGiven "pda"
  push := arguments.value "push" ""
  pop := arguments.value "pop" ""
  pass := arguments.value "pass" ""

def ofStrings (texts : List String) : Except UsageError Options :=
  (Arguments.ofStrings usage texts).map ofArguments

def alphabet (options : Options) : Alphabet := { digits := options.digits }

def requests (options : Options) : List (Char × StackAction) :=
  options.push.toList.map (·, .push) ++ options.pop.toList.map (·, .pop) ++
    options.pass.toList.map (·, .passThrough)

def addRequests (alphabet : Alphabet) (table : ActionTable) :
    List (Char × StackAction) → Except ConfigError ActionTable
  | [] => .ok table
  | (c, action) :: rest =>
    if !alphabet.isSymbol c then .error (.notASymbol c)
    else
      match table.get? c with
      | some earlier => .error (.givenBoth c earlier action)
      | none => addRequests alphabet (table.set c action) rest

/-- The configuration of the compiler. Without symbols of its own the pushdown automaton balances
`a`s by `b`s. -/
def config (options : Options) : Except ConfigError Config :=
  match addRequests options.alphabet .empty options.requests with
  | .error error => .error error
  | .ok table => .ok {
      alphabet := options.alphabet
      stackActions :=
        if !table.isEmpty then some table else if options.pda then some .balancedAb else none }

end Options

end RegexCompiler.CommandLine
