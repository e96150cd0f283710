import RegexCompiler.Alphabet
import RegexCompiler.Token.Concatenation
import RegexCompiler.Token.Rpn

namespace RegexCompiler

structure Parsed where
  tokens : List Token
  withConcatenation : List Token
  rpn : List Token
deriving DecidableEq

namespace Parsed

def firstInvalid (index : Nat) : List Token → Option ParseError
  | [] => none
  | .invalid c :: _ => some (.ofInvalid c index)
  | _ :: rest => firstInvalid (index + 1) rest

def validTokens (alphabet : Alphabet) (source : String) : Except ParseError (List Token) :=
  let tokens := alphabet.tokenize source
  if tokens.isEmpty then .error .emptyExpression
  else
    match firstInvalid 0 tokens with
    | some error => .error error
    | none => .ok tokens

/-- Invalid characters are reported before anything that is wrong with the groups, and by their position
among the tokens of the source. -/
def ofSource (alphabet : Alphabet) (source : String) : Except ParseError Parsed :=
  match validTokens alphabet source with
  | .error error => .error error
  | .ok tokens =>
    let withConcatenation := Token.insertConcatenation tokens
    (Token.toRpn withConcatenation).map fun rpn ↦ { tokens, withConcatenation, rpn }

end Parsed

end RegexCompiler
