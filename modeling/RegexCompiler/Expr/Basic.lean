import RegexCompiler.Token

namespace RegexCompiler

inductive Expr where
  | literal (c : Char)
  | concat (left right : Expr)
  | alternation (left right : Expr)
  | star (inner : Expr)
deriving DecidableEq

namespace Expr

def rpn : Expr → List Token
  | literal c => [.literal c]
  | concat left right => left.rpn ++ right.rpn ++ [.operator .concat]
  | alternation left right => left.rpn ++ right.rpn ++ [.operator .alternation]
  | star inner => inner.rpn ++ [.operator .star]

inductive Matches : Expr → List Char → Prop
  | literal (c : Char) : Matches (literal c) [c]
  | concat {left right : Expr} {u v : List Char} :
    Matches left u → Matches right v → Matches (concat left right) (u ++ v)
  | left {left right : Expr} {w : List Char} : Matches left w → Matches (alternation left right) w
  | right {left right : Expr} {w : List Char} : Matches right w → Matches (alternation left right) w
  | stop (inner : Expr) : Matches (star inner) []
  | repeat {inner : Expr} {u v : List Char} :
    Matches inner u → Matches (star inner) v → Matches (star inner) (u ++ v)

end Expr

end RegexCompiler
