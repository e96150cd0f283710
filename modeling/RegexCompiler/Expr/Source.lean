import RegexCompiler.Expr.Basic

namespace RegexCompiler.Expr

/-- An expression as source characters. A concatenation needs no group: where it is an operand, what is
around it binds looser or the operand has a group of its own. -/
def source : Expr → List Char
  | literal c => [c]
  | concat left right => left.source ++ right.source
  | alternation left right => '(' :: left.source ++ '|' :: right.source ++ [')']
  | star inner =>
    match inner.source with
    | [c] => [c, '*']
    | cs => '(' :: cs ++ [')', '*']

end RegexCompiler.Expr
