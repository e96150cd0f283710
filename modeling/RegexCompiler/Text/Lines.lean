namespace RegexCompiler.Text

def dropReturn (line : List UInt8) : List UInt8 := if line.getLast? = some 13 then line.dropLast else line

/-- The lines of a byte sequence, without their endings. Bytes after the last line feed form a line too. -/
def splitLines (bytes : List UInt8) : List (List UInt8) :=
  let pieces := bytes.splitOn 10
  pieces.dropLast.map dropReturn ++ (pieces.getLast?.toList.filter fun last ↦ !last.isEmpty)

def decode (line : List UInt8) : Option String := String.fromUTF8? line.toByteArray

end RegexCompiler.Text
