import RegexCompiler.Dfa.Basic
import RegexCompiler.Nfa.Table

namespace RegexCompiler

namespace Nfa

namespace Table

variable {nfa : Nfa}

def subsetTransition? (table : nfa.Table) (states : StateSet) (c : Char) : Option Dfa.Transition :=
  let target := table.next states c
  if target.isEmpty then none else some ⟨states, c, target⟩

theorem target_of_subsetTransition? {table : nfa.Table} {states : StateSet} {c : Char}
    {t : Dfa.Transition} (h : table.subsetTransition? states c = some t) :
    t.target = table.next states c := by
  dsimp only [subsetTransition?] at h
  split at h
  · cases h
  · cases h
    rfl

def subsetSpace (table : nfa.Table) : Space StateSet Dfa.Transition :=
  let symbols := nfa.alphabet.toList
  { moves := fun states ↦ symbols.filterMap (table.subsetTransition? states)
    target := Dfa.Transition.target
    bounded := by
      refine ⟨OrderedSet.subsets (nfa.transitions.map Transition.target), fun states t ht ↦ ?_⟩
      obtain ⟨c, -, hc⟩ := List.mem_filterMap.1 ht
      refine OrderedSet.mem_subsets fun q hq ↦ ?_
      rw [target_of_subsetTransition? hc] at hq
      exact (mem_of_mem_closure hq).elim mem_of_mem_move id }

end Table

def subsetSearch (nfa : Nfa) : List (Visit StateSet Dfa.Transition) :=
  nfa.table.subsetSpace.search [nfa.table.startSet]

/-- The deterministic automaton for the same words. Its states are the non-empty sets of states that some
word leads to, in the order of their discovery. -/
def determinize (nfa : Nfa) : Dfa :=
  let start := nfa.table.startSet
  let search := nfa.subsetSearch
  let states := nfa.table.subsetSpace.discovered [start] search
  { start
    states
    accepting := states.filter (nfa.accept ∈ ·)
    transitions := search.flatMap Visit.moves }

end Nfa

end RegexCompiler
