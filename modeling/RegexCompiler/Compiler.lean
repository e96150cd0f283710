import RegexCompiler.Dfa.Subsets
import RegexCompiler.Dfa.Table
import RegexCompiler.Nfa.Thompson
import RegexCompiler.Parsed
import RegexCompiler.Pda.Derive

namespace RegexCompiler

structure Config where
  alphabet : Alphabet := {}
  /-- The stack actions of the pushdown automaton; without them there is none. -/
  stackActions : Option ActionTable := none
deriving DecidableEq

inductive Stage where
  | parsing
  | construction
  | derivation
deriving DecidableEq

namespace Stage

def name : Stage → String
  | parsing => "parsing"
  | construction => "NFA construction"
  | derivation => "PDA derivation"

end Stage

inductive CompileError where
  | parse (error : ParseError)
  | build (error : BuildError)
  | derive (error : PdaError)
deriving DecidableEq

namespace CompileError

def stage : CompileError → Stage
  | parse _ => .parsing
  | build _ => .construction
  | derive _ => .derivation

def message : CompileError → String
  | parse error => error.message
  | build error => error.message
  | derive error => error.message

end CompileError

structure Compilation where
  parsed : Parsed
  nfa : Nfa
  dfa : Dfa
  pda : Option Pda
deriving DecidableEq

namespace Compilation

def ofNfa (config : Config) (parsed : Parsed) (nfa : Nfa) : Except CompileError Compilation :=
  let dfa := nfa.determinize
  match config.stackActions with
  | none => .ok { parsed, nfa, dfa, pda := none }
  | some actions =>
    match Pda.ofDfa dfa actions with
    | .error error => .error (.derive error)
    | .ok pda => .ok { parsed, nfa, dfa, pda := some pda }

end Compilation

/-- A compiler hands out the states of its automata itself: they depend on no other compiler, and since
the numbering starts anew with every expression, not on earlier compilations either. -/
structure Compiler where
  config : Config := {}
  allocator : Allocator := {}

namespace Compiler

def compile (compiler : Compiler) (source : String) : Except CompileError Compilation × Compiler :=
  match Parsed.ofSource compiler.config.alphabet source with
  | .error error => (.error (.parse error), compiler)
  | .ok parsed =>
    let (built, allocator) := Nfa.ofRpn compiler.allocator.reset parsed.rpn
    let result :=
      match built with
      | .error error => .error (.build error)
      | .ok nfa => Compilation.ofNfa compiler.config parsed nfa
    (result, { compiler with allocator })

end Compiler

end RegexCompiler
