import RegexCompiler.Log
import RegexCompiler.Proofs.Pushdown
import RegexCompiler.Proofs.Shape
import RegexCompiler.Proofs.SubsetAutomaton

namespace RegexCompiler

open Token

namespace Conversion

def outputSize (tokens : List Token) : Nat := (Scan.run step 0 {} tokens).1.output.length

end Conversion

namespace LogRecord

def steps (tokens : List Token) : List LogRecord :=
  tokens.zipIdx.map fun (token, index) ↦
    converted index token (Conversion.outputSize (tokens.take (index + 1)))

def stepLines (tokens : List Token) : List String :=
  tokens.zipIdx.map fun (token, index) ↦
    let name := match token with
      | .literal c => s!"Literal({Text.quotedChar c})"
      | .operator .alternation => "Operator(Alternation)"
      | .operator .concat => "Operator(Concat)"
      | .operator .star => "Operator(Star)"
      | .groupOpen => "GroupOpen"
      | .groupClose => "GroupClose"
      | .invalid c => s!"Invalid({Text.quotedChar c})"
    let size := Conversion.outputSize (tokens.take (index + 1))
    "TRACE " ++ s!"postfix step {index}: {name}, output has {size} tokens"

end LogRecord

namespace Nfa

namespace Assembly

variable {n index : Nat} {es es' : List Expr} {t : Token}

end Assembly

variable {allocator : Allocator} {rpn : List Token} {nfa : Nfa}

end Nfa

namespace Compilation

variable {config : Config} {parsed : Parsed} {nfa : Nfa} {c : Compilation}

end Compilation

namespace Compiler

variable {compiler : Compiler} {source : String} {c : Compilation}

end Compiler

end RegexCompiler
