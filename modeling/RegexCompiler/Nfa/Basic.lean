import RegexCompiler.OrderedSet

namespace RegexCompiler

abbrev State := Nat

abbrev StateSet := OrderedSet State

namespace State

def name (q : State) : String := "q" ++ q.repr

end State

namespace StateSet

def name (states : StateSet) : String :=
  "\x7b" ++ String.intercalate "," (states.toList.map State.name) ++ "\x7d"

end StateSet

inductive Label where
  | epsilon
  | symbol (c : Char)
deriving DecidableEq

namespace Label

def text : Label → String
  | epsilon => "ε"
  | symbol c => String.singleton c

def symbol? : Label → Option Char
  | epsilon => none
  | symbol c => some c

end Label

namespace Nfa

structure Transition where
  source : State
  target : State
  label : Label
deriving DecidableEq

end Nfa

structure Nfa where
  start : State
  accept : State
  transitions : List Nfa.Transition
deriving DecidableEq

namespace Nfa

def states (nfa : Nfa) : StateSet :=
  .ofList (nfa.start :: nfa.accept :: nfa.transitions.flatMap fun t ↦ [t.source, t.target])

def alphabet (nfa : Nfa) : OrderedSet Char := .ofList (nfa.transitions.filterMap fun t ↦ t.label.symbol?)

def targets (nfa : Nfa) (q : State) (label : Label) : List State :=
  (nfa.transitions.filter fun t ↦ t.source = q && t.label = label).map Transition.target

theorem targets_subset (nfa : Nfa) (q : State) (label : Label) :
    nfa.targets q label ⊆ nfa.transitions.map Transition.target :=
  List.map_subset _ List.filter_sublist.subset

inductive Path (nfa : Nfa) : State → List Char → State → Prop
  | refl (q : State) : Path nfa q [] q
  | epsilon {p q r : State} {w : List Char} :
    ⟨p, q, .epsilon⟩ ∈ nfa.transitions → Path nfa q w r → Path nfa p w r
  | symbol {p q r : State} {c : Char} {w : List Char} :
    ⟨p, q, .symbol c⟩ ∈ nfa.transitions → Path nfa q w r → Path nfa p (c :: w) r

end Nfa

end RegexCompiler
