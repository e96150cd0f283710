namespace RegexCompiler

inductive Operator where
  | alternation
  | concat
  | star
deriving DecidableEq

namespace Operator

def char : Operator → Char
  | alternation => '|'
  | concat => '.'
  | star => '*'

/-- How tightly an operator binds; between equal ones the left one binds first. -/
def precedence : Operator → Nat
  | alternation => 1
  | concat => 2
  | star => 3

def arity : Operator → Nat
  | alternation => 2
  | concat => 2
  | star => 1

end Operator

inductive Token where
  | literal (c : Char)
  | operator (op : Operator)
  | groupOpen
  | groupClose
  /-- A character the language has no use for. -/
  | invalid (c : Char)
deriving DecidableEq

namespace Token

def char : Token → Char
  | literal c => c
  | operator op => op.char
  | groupOpen => '('
  | groupClose => ')'
  | invalid c => c

def endsOperand : Token → Bool
  | literal _ => true
  | groupClose => true
  | operator .star => true
  | _ => false

def startsOperand : Token → Bool
  | literal _ => true
  | groupOpen => true
  | _ => false

def text (tokens : List Token) : String :=
  String.intercalate " " (tokens.map fun token ↦ String.singleton token.char)

end Token

end RegexCompiler
