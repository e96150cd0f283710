import RegexCompiler.Nfa.Basic

namespace RegexCompiler

inductive StackSymbol where
  /-- It marks the bottom of the stack. -/
  | bottom
  | marker
deriving DecidableEq

namespace StackSymbol

def text : StackSymbol → String
  | bottom => "Z"
  | marker => "X"

end StackSymbol

namespace Pda

inductive State where
  | start
  | inner (states : StateSet)
  | accept
deriving DecidableEq, Hashable

namespace State

def name : State → String
  | start => "start"
  | inner states => states.name
  | accept => "accept"

def rank : State → Nat
  | start => 2
  | inner _ => 1
  | accept => 0

end State

/-- A transition reads a symbol, takes a stack symbol from the top and puts one there, or leaves out any
of the three. -/
structure Transition where
  source : State
  target : State
  input : Option Char
  pop : Option StackSymbol
  push : Option StackSymbol
deriving DecidableEq

namespace Transition

def label (t : Transition) : String :=
  let text (part : Option String) : String := part.getD "ε"
  text (t.input.map String.singleton) ++ ", " ++ text (t.pop.map StackSymbol.text) ++ " → " ++
    text (t.push.map StackSymbol.text)

end Transition

end Pda

/-- A pushdown automaton. Transitions that read nothing lead to lower and lower states, so there are never
more than two of them in a row. -/
structure Pda where
  start : Pda.State
  states : List Pda.State
  accepting : List Pda.State
  transitions : List Pda.Transition
  descends : ∀ t ∈ transitions, t.input = none → t.target.rank < t.source.rank
deriving DecidableEq

namespace Pda

def isAccepting (pda : Pda) (state : State) : Bool := state ∈ pda.accepting

end Pda

end RegexCompiler
