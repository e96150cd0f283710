import RegexCompiler.Compiler
import RegexCompiler.Words

namespace RegexCompiler

inductive Mismatch where
  | foreignState (t : Nfa.Transition)
  | emptySubset
  | disagreement (w : List Char) (byNfa byDfa : Bool)
deriving DecidableEq

namespace Mismatch

def message (source : String) : Mismatch → String
  | foreignState t =>
    s!"{Text.quoted source}: NFA transition {State.name t.source} -> {State.name t.target} " ++
      "leaves the automaton"
  | emptySubset => s!"{Text.quoted source}: DFA contains the empty subset"
  | disagreement w byNfa byDfa =>
    s!"{Text.quoted source}: NFA says {byNfa} but DFA says {byDfa} on " ++
      Text.quoted (String.ofList w)

end Mismatch

/-- What came of a check: the number of words on which both automata were compared, or the stage in which
the compilation failed. -/
inductive Verdict where
  | agreed (words : Nat)
  | rejected (stage : Stage)
deriving DecidableEq

namespace Compilation

def mismatch? (compilation : Compilation) (maxLength : Nat) : Option Mismatch :=
  let nfa := compilation.nfa
  let dfa := compilation.dfa
  let states := nfa.states
  match nfa.transitions.find? fun t ↦ !(t.source ∈ states && t.target ∈ states) with
  | some t => some (.foreignState t)
  | none =>
    if dfa.states.any OrderedSet.isEmpty then some .emptySubset
    else
      let words := wordsUpTo nfa.alphabet.toList maxLength
      let nfa := nfa.table
      let dfa := dfa.table
      (words.find? fun w ↦ nfa.accepts w != dfa.accepts w).map fun w ↦
        .disagreement w (nfa.accepts w) (dfa.accepts w)

end Compilation

namespace Compiler

def check (compiler : Compiler) (source : String) (maxLength : Nat) :
    Except Mismatch Verdict × Compiler :=
  match compiler.compile source with
  | (.error error, compiler) => (.ok (.rejected error.stage), compiler)
  | (.ok compilation, compiler) =>
    match compilation.mismatch? maxLength with
    | some mismatch => (.error mismatch, compiler)
    | none =>
      (.ok (.agreed (wordsUpTo compilation.nfa.alphabet.toList maxLength).length), compiler)

end Compiler

end RegexCompiler
