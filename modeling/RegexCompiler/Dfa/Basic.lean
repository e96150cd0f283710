import RegexCompiler.Nfa.Basic

namespace RegexCompiler

namespace Dfa

structure Transition where
  source : StateSet
  symbol : Char
  target : StateSet
deriving DecidableEq

end Dfa

/-- A deterministic automaton whose states are sets of states of a nondeterministic one. It is partial: a
word for which a transition is missing is rejected. -/
structure Dfa where
  start : StateSet
  states : List StateSet
  accepting : List StateSet
  transitions : List Dfa.Transition
deriving DecidableEq

namespace Dfa

def isAccepting (dfa : Dfa) (state : StateSet) : Bool := state ∈ dfa.accepting

def next (dfa : Dfa) (state : StateSet) (c : Char) : Option StateSet :=
  (dfa.transitions.find? fun t ↦ t.source = state && t.symbol = c).map Transition.target

def run (dfa : Dfa) (state : StateSet) : List Char → Option StateSet
  | [] => some state
  | c :: w => (dfa.next state c).bind fun next ↦ dfa.run next w

def alphabet (dfa : Dfa) : OrderedSet Char := .ofList (dfa.transitions.map Transition.symbol)

end Dfa

end RegexCompiler
