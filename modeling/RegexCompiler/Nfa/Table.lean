import RegexCompiler.Index
import RegexCompiler.Nfa.Basic
import RegexCompiler.Search

namespace RegexCompiler

namespace Nfa

abbrev Table (nfa : Nfa) := Index Transition.source nfa.transitions

def table (nfa : Nfa) : nfa.Table := .ofList Transition.source nfa.transitions

namespace Table

variable {nfa : Nfa}

def targets (table : nfa.Table) (q : State) (label : Label) : List State :=
  ((table.lookup q).filter fun t ↦ t.label = label).map Transition.target

@[simp] theorem targets_eq (table : nfa.Table) (q : State) (label : Label) :
    table.targets q label = nfa.targets q label := by
  simp only [targets, Index.lookup_eq, List.filter_filter, Nfa.targets, Bool.and_comm]

def epsilonSpace (table : nfa.Table) : Space State State where
  moves q := table.targets q .epsilon
  target := id
  bounded :=
    ⟨nfa.transitions.map Transition.target, fun q _ h ↦ nfa.targets_subset q .epsilon (by simpa using h)⟩

def closure (table : nfa.Table) (states : StateSet) : StateSet :=
  .ofList (table.epsilonSpace.discovered states.toList (table.epsilonSpace.search states.toList))

def move (table : nfa.Table) (states : StateSet) (c : Char) : StateSet :=
  .ofList (states.toList.flatMap fun q ↦ table.targets q (.symbol c))

theorem mem_of_mem_closure {table : nfa.Table} {states : StateSet} {q : State}
    (h : q ∈ table.closure states) : q ∈ states ∨ q ∈ nfa.transitions.map Transition.target := by
  refine (Space.mem_discovered (OrderedSet.mem_ofList.1 h)).imp_right fun ⟨p, r, hr, hq⟩ ↦ ?_
  obtain rfl : r = q := hq
  exact nfa.targets_subset p .epsilon (by simpa [epsilonSpace] using hr)

theorem mem_of_mem_move {table : nfa.Table} {states : StateSet} {c : Char} {q : State}
    (h : q ∈ table.move states c) : q ∈ nfa.transitions.map Transition.target := by
  obtain ⟨p, -, hp⟩ := List.mem_flatMap.1 (OrderedSet.mem_ofList.1 h)
  exact nfa.targets_subset p (.symbol c) (by simpa using hp)

def startSet (table : nfa.Table) : StateSet := table.closure (.ofList [nfa.start])

/-- The states that can be reached from `states` by reading a symbol. -/
def next (table : nfa.Table) (states : StateSet) (c : Char) : StateSet := table.closure (table.move states c)

def acceptsFrom (table : nfa.Table) (current : StateSet) : List Char → Bool
  | [] => nfa.accept ∈ current
  | c :: w =>
    let next := table.next current c
    if next.isEmpty then false else table.acceptsFrom next w

def accepts (table : nfa.Table) (w : List Char) : Bool := table.acceptsFrom table.startSet w

end Table

def closure (nfa : Nfa) (states : StateSet) : StateSet := nfa.table.closure states

def move (nfa : Nfa) (states : StateSet) (c : Char) : StateSet := nfa.table.move states c

def accepts (nfa : Nfa) (w : List Char) : Bool := nfa.table.accepts w

end Nfa

end RegexCompiler
