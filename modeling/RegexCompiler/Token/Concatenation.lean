import RegexCompiler.Token

namespace RegexCompiler.Token

def joins (left right : Token) : Bool := left.endsOperand && right.startsOperand

/-- Makes concatenation explicit: an operator comes between adjacent operands. -/
def insertConcatenation : List Token → List Token
  | left :: right :: rest =>
    if left.joins right then
      left :: operator .concat :: insertConcatenation (right :: rest)
    else
      left :: insertConcatenation (right :: rest)
  | tokens => tokens

end RegexCompiler.Token
