import RegexCompiler.Compiler

namespace RegexCompiler

inductive LogRecord where
  /-- A token was taken up by the conversion to reverse Polish notation. -/
  | converted (index : Nat) (token : Token) (size : Nat)
  | parsed (source : String) (size : Nat)
  /-- A token became a fragment of the nondeterministic automaton. -/
  | fragment (token : Token) (start accept : State) (transitions : Nat)
  | built (states transitions : Nat)
  /-- A state of the deterministic automaton was found by a transition. -/
  | discovered (state : StateSet) (symbol : Char)
  | determinized (states transitions : Nat)
  | derived (states transitions : Nat)
  | compiled (source : String) (nfaStates dfaStates : Nat)
deriving DecidableEq

namespace LogRecord

inductive Level where
  | debug
  | trace
deriving DecidableEq

def Level.name : Level → String
  | debug => "DEBUG"
  | trace => "TRACE"

def level : LogRecord → Level
  | converted .. => .trace
  | fragment .. => .trace
  | discovered .. => .trace
  | _ => .debug

def operatorName : Operator → String
  | .alternation => "Alternation"
  | .concat => "Concat"
  | .star => "Star"

def tokenName : Token → String
  | .literal c => s!"Literal({Text.quotedChar c})"
  | .operator op => s!"Operator({operatorName op})"
  | .groupOpen => "GroupOpen"
  | .groupClose => "GroupClose"
  | .invalid c => s!"Invalid({Text.quotedChar c})"

def message : LogRecord → String
  | converted index token size =>
    s!"postfix step {index}: {tokenName token}, output has {size} tokens"
  | parsed source size => s!"parsed {Text.quoted source} into {size} postfix tokens"
  | fragment token start accept transitions =>
    s!"{token.char}: fragment {State.name start} -> {State.name accept} with {transitions} transitions"
  | built states transitions => s!"built NFA with {states} states and {transitions} transitions"
  | discovered state symbol => s!"discovered {StateSet.name state} on '{symbol}'"
  | determinized states transitions =>
    s!"determinized NFA into {states} states and {transitions} transitions"
  | derived states transitions => s!"derived PDA with {states} states and {transitions} transitions"
  | compiled source nfaStates dfaStates =>
    s!"compiled {Text.quoted source}: {nfaStates} NFA states, {dfaStates} DFA states"

def line (record : LogRecord) : String := record.level.name ++ " " ++ record.message

def conversion (tokens : List Token) : List LogRecord :=
  (Scan.trail Conversion.step 0 {} tokens).zipIdx.map fun ((token, state), index) ↦
    converted index token state.output.length

def parsing (alphabet : Alphabet) (source : String) : List LogRecord :=
  match Parsed.validTokens alphabet source with
  | .error _ => []
  | .ok tokens =>
    conversion (Token.insertConcatenation tokens) ++
      match Parsed.ofSource alphabet source with
      | .error _ => []
      | .ok result => [parsed source result.rpn.length]

def fragments (allocator : Allocator) (rpn : List Token) : List LogRecord :=
  (Scan.trail Nfa.Assembly.step 0 ⟨allocator, []⟩ rpn).flatMap fun (token, assembly) ↦
    assembly.fragments.head?.toList.map fun nfa ↦
      fragment token nfa.start nfa.accept nfa.transitions.length

def construction (allocator : Allocator) (rpn : List Token) : List LogRecord :=
  fragments allocator rpn ++
    match Nfa.ofRpn allocator rpn with
    | (.error _, _) => []
    | (.ok nfa, allocator) => [built allocator.allocated nfa.transitions.length]

def determinization (nfa : Nfa) : List LogRecord :=
  let search := nfa.subsetSearch
  (search.flatMap Visit.fresh).map (fun t ↦ discovered t.target t.symbol) ++
    [determinized nfa.determinize.states.length nfa.determinize.transitions.length]

def derivation (config : Config) (dfa : Dfa) : List LogRecord :=
  match config.stackActions with
  | none => []
  | some actions =>
    match Pda.ofDfa dfa actions with
    | .error _ => []
    | .ok pda => [derived pda.states.length pda.transitions.length]

end LogRecord

/-- Everything the compilation of a source reports, in order. A compilation that fails reports as far as it
gets. -/
def Compiler.log (compiler : Compiler) (source : String) : List LogRecord :=
  LogRecord.parsing compiler.config.alphabet source ++
    match Parsed.ofSource compiler.config.alphabet source with
    | .error _ => []
    | .ok parsed =>
      let allocator := compiler.allocator.reset
      LogRecord.construction allocator parsed.rpn ++
        match (Nfa.ofRpn allocator parsed.rpn).1 with
        | .error _ => []
        | .ok nfa =>
          LogRecord.determinization nfa ++ LogRecord.derivation compiler.config nfa.determinize ++
            match (compiler.compile source).1 with
            | .error _ => []
            | .ok compilation =>
              [.compiled source compilation.nfa.states.size compilation.dfa.states.length]

end RegexCompiler
