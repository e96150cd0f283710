import RegexCompiler.Expr.Basic
import RegexCompiler.Random.Draw

namespace RegexCompiler

variable {γ : Type} [RandomSource γ]

/-- A random expression over a charset. Each level of the tree is a leaf in one of four cases, and the
leaves at the latest are `depth` levels down. -/
def Expr.draw (charset : List Char) : Nat → Draw γ Expr
  | 0 => .literal <$> Draw.sample charset
  | depth + 1 => do
    if ← Draw.chance 1 4 then .literal <$> Draw.sample charset
    else
      match ← Draw.below 3 with
      | 0 =>
        let left ← Expr.draw charset depth
        let right ← Expr.draw charset depth
        return .concat left right
      | 1 =>
        let left ← Expr.draw charset depth
        let right ← Expr.draw charset depth
        return .alternation left right
      | 2 => .star <$> Expr.draw charset depth

end RegexCompiler
