import RegexCompiler.Text.Blank
import RegexCompiler.Token

namespace RegexCompiler

structure Alphabet where
  digits : Bool := true
deriving DecidableEq

namespace Alphabet

def isSymbol (alphabet : Alphabet) (c : Char) : Bool := c.isLower || (alphabet.digits && c.isDigit)

def symbols (alphabet : Alphabet) : List Char :=
  (if alphabet.digits then "0123456789".toList else []) ++ "abcdefghijklmnopqrstuvwxyz".toList

/-- A dot is invalid: concatenation has no character of its own in a source. -/
def classify (alphabet : Alphabet) (c : Char) : Token :=
  if c = '|' then .operator .alternation
  else if c = '*' then .operator .star
  else if c = '(' then .groupOpen
  else if c = ')' then .groupClose
  else if alphabet.isSymbol c then .literal c
  else .invalid c

def tokenize (alphabet : Alphabet) (source : String) : List Token :=
  (source.toList.filter fun c ↦ !Text.isBlank c).map alphabet.classify

end Alphabet

end RegexCompiler
