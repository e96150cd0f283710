namespace RegexCompiler

def lengthen (symbols : List Char) (words : List (List Char)) : List (List Char) :=
  words.flatMap fun w ↦ symbols.map fun c ↦ w ++ [c]

/-- Some words, then those with one symbol more, and so on, up to `more` symbols. Where there are no words
there are no longer ones either. -/
def wordsFrom (symbols : List Char) (words : List (List Char)) : Nat → List (List Char)
  | 0 => words
  | more + 1 =>
    if words.isEmpty then [] else words ++ wordsFrom symbols (lengthen symbols words) more

def wordsUpTo (symbols : List Char) (maxLength : Nat) : List (List Char) :=
  wordsFrom symbols [[]] maxLength

end RegexCompiler
