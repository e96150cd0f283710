import RegexCompiler.Text.Quoted

namespace RegexCompiler

inductive ParseError where
  | emptyExpression
  | reservedOperator (index : Nat)
  | unsupportedCharacter (c : Char) (index : Nat)
  | unbalancedGroupClose (index : Nat)
  | unclosedGroup (count : Nat)
deriving DecidableEq

namespace ParseError

def ofInvalid (c : Char) (index : Nat) : ParseError :=
  if c = '.' then .reservedOperator index else .unsupportedCharacter c index

def message : ParseError → String
  | emptyExpression => "the regular expression is empty"
  | reservedOperator index =>
    s!"'.' is the concatenation operator and can not appear in the input (token {index})"
  | unsupportedCharacter c index => s!"unsupported character {Text.quotedChar c} (token {index})"
  | unbalancedGroupClose index => s!"')' without a matching '(' (token {index})"
  | unclosedGroup count => s!"{count} '(' never closed"

end ParseError

end RegexCompiler
