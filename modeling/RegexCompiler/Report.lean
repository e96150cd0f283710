import RegexCompiler.Compiler
import RegexCompiler.Graph

namespace RegexCompiler

inductive Format where
  | text
  | json
deriving DecidableEq

namespace Report

open Text (Json)

def list (names : List String) : String := "[" ++ String.intercalate ", " names ++ "]"

def stepLines (source : String) (parsed : Parsed) : List String :=
  [s!"Regex: {source}",
    s!"Tokens: {Token.text parsed.tokens}",
    s!"With concatenation: {Token.text parsed.withConcatenation}",
    s!"Postfix: {Token.text parsed.rpn}"]

def nfaLines (nfa : Nfa) : List String :=
  let size := nfa.transitions.length
  s!"NFA: start {State.name nfa.start}, accept {State.name nfa.accept}, {size} transitions" ::
    nfa.transitions.map fun t ↦ s!"  {State.name t.source} -{t.label.text}-> {State.name t.target}"

def dfaLines (dfa : Dfa) : List String :=
  let accepting := list (dfa.accepting.map StateSet.name)
  let size := dfa.states.length
  s!"DFA: start {StateSet.name dfa.start}, accepting {accepting}, {size} states" ::
    dfa.transitions.map fun t ↦
      s!"  {StateSet.name t.source} -{t.symbol}-> {StateSet.name t.target}"

def pdaLines (pda : Pda) : List String :=
  let accepting := list (pda.accepting.map Pda.State.name)
  let size := pda.states.length
  s!"PDA: start {pda.start.name}, accepting {accepting}, {size} states" ::
    pda.transitions.map fun t ↦ s!"  {t.source.name} -[{t.label}]-> {t.target.name}"

def lines (source : String) (compilation : Compilation) : List String :=
  stepLines source compilation.parsed ++ nfaLines compilation.nfa ++
    dfaLines compilation.dfa ++ compilation.pda.toList.flatMap pdaLines

def json (source : String) (compilation : Compilation) : Json :=
  .object [("regex", .string source), ("postfix", .string (Token.text compilation.parsed.rpn)),
    ("nfa", compilation.nfa.graph.json), ("dfa", compilation.dfa.graph.json),
    ("pda", (compilation.pda.map fun pda ↦ pda.graph.json).getD .null)]

def text (format : Format) (source : String) (compilation : Compilation) : String :=
  match format with
  | .text => String.join ((lines source compilation).map fun line ↦ line ++ "\n")
  | .json => (json source compilation).pretty ++ "\n"

end Report

end RegexCompiler
