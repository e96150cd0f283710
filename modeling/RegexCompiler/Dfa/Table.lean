import RegexCompiler.Dfa.Basic
import RegexCompiler.Index

namespace RegexCompiler

namespace Dfa

abbrev Table (dfa : Dfa) := Index Transition.source dfa.transitions

def table (dfa : Dfa) : dfa.Table := .ofList Transition.source dfa.transitions

namespace Table

variable {dfa : Dfa}

def next (table : dfa.Table) (state : StateSet) (c : Char) : Option StateSet :=
  ((table.lookup state).find? fun t ↦ t.symbol = c).map Transition.target

@[simp] theorem next_eq (table : dfa.Table) (state : StateSet) (c : Char) :
    table.next state c = dfa.next state c := by
  simp [next, List.find?_filter, Dfa.next]

def run (table : dfa.Table) (state : StateSet) : List Char → Option StateSet
  | [] => some state
  | c :: w => (table.next state c).bind fun next ↦ table.run next w

@[simp] theorem run_eq (table : dfa.Table) (state : StateSet) (w : List Char) :
    table.run state w = dfa.run state w := by
  induction w generalizing state with
  | nil => rfl
  | cons c w ih => simp only [run, Dfa.run, next_eq, ih]

def accepts (table : dfa.Table) (w : List Char) : Bool := (table.run dfa.start w).any dfa.isAccepting

end Table

def accepts (dfa : Dfa) (w : List Char) : Bool := dfa.table.accepts w

end Dfa

end RegexCompiler
