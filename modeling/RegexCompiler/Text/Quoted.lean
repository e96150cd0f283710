import RegexCompiler.Text.Unprintable

namespace RegexCompiler.Text

/-- A character as it stands between two `delimiter`s: the delimiter, the backslash and a few control
characters have short escapes, unprintable characters are given by their code point in hexadecimal. -/
def escape (delimiter c : Char) : List Char :=
  if c = '\x00' then ['\\', '0']
  else if c = '\t' then ['\\', 't']
  else if c = '\r' then ['\\', 'r']
  else if c = '\n' then ['\\', 'n']
  else if c = '\\' ∨ c = delimiter then ['\\', c]
  else if isUnprintable c then ['\\', 'u', '\x7b'] ++ Nat.toDigits 16 c.toNat ++ ['\x7d']
  else [c]

def quotedChar (c : Char) : String := String.ofList ('\x27' :: escape '\x27' c ++ ['\x27'])

def quoted (s : String) : String := String.ofList ('\x22' :: s.toList.flatMap (escape '\x22') ++ ['\x22'])

end RegexCompiler.Text
