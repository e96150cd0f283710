import RegexCompiler.ParseError
import RegexCompiler.Scan
import RegexCompiler.Token

namespace RegexCompiler

/-- A conversion to reverse Polish notation under way. The newest token comes first, and so does the
innermost group. -/
structure Conversion where
  output : List Token := []
  /-- Operators of the innermost group that still wait for the end of their right operand. -/
  pending : List Operator := []
  /-- The pending operators of the enclosing groups. -/
  enclosing : List (List Operator) := []

namespace Conversion

def emit (output : List Token) (ops : List Operator) : List Token :=
  (ops.map Token.operator).reverse ++ output

/-- Literals go to the output at once. An operator waits until the next one that binds no tighter, or the
end of its group, has shown where its right operand ends. -/
def step (index : Nat) (state : Conversion) : Token → Except ParseError Conversion
  | .literal c => .ok { state with output := .literal c :: state.output }
  | .operator op =>
    let complete (earlier : Operator) : Bool := op.precedence ≤ earlier.precedence
    .ok { state with
      output := emit state.output (state.pending.takeWhile complete)
      pending := op :: state.pending.dropWhile complete }
  | .groupOpen => .ok { state with pending := [], enclosing := state.pending :: state.enclosing }
  | .groupClose =>
    match state.enclosing with
    | [] => .error (.unbalancedGroupClose index)
    | outer :: enclosing =>
      .ok { output := emit state.output state.pending, pending := outer, enclosing }
  | .invalid c => .error (.ofInvalid c index)

def finish (state : Conversion) : Except ParseError (List Token) :=
  match state.enclosing with
  | [] => .ok (emit state.output state.pending).reverse
  | enclosing => .error (.unclosedGroup enclosing.length)

end Conversion

/-- Reverse Polish notation: operands come before their operator, and groups disappear. Whether operators
have their operands is not checked. -/
def Token.toRpn (tokens : List Token) : Except ParseError (List Token) :=
  match Scan.run Conversion.step 0 {} tokens with
  | (state, none) => state.finish
  | (_, some error) => .error error

end RegexCompiler
