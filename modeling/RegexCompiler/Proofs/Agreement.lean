import RegexCompiler.Check
import RegexCompiler.Proofs.Allocation
import RegexCompiler.Proofs.StateCount
import RegexCompiler.Proofs.Words

namespace RegexCompiler

open Token

theorem Nfa.length_alphabet (nfa : Nfa) : nfa.alphabet.toList.length = nfa.symbols.toFinset.card := by
  apply OrderedSet.size_eq_card
  intro c
  rw [List.mem_toFinset]
  exact mem_alphabet_iff

namespace Compilation

variable {c : Compilation}

theorem find?_foreignState (c : Compilation) :
    (c.nfa.transitions.find? fun t ↦ !(t.source ∈ c.nfa.states && t.target ∈ c.nfa.states)) = none := by
  apply List.find?_eq_none.2
  intro t ht
  simp [Nfa.source_mem_states ht, Nfa.target_mem_states ht]

theorem any_isEmpty_eq_false (h : c.dfa = c.nfa.determinize) :
    c.dfa.states.any OrderedSet.isEmpty = false := by
  apply List.any_eq_false.2
  intro states hstates
  rw [h] at hstates
  simp [(Nfa.mem_determinize_iff.1 hstates).1]

theorem accepts_dfa (h : c.dfa = c.nfa.determinize) (w : List Char) :
    c.dfa.table.accepts w = c.nfa.table.accepts w := by
  have haccepts := c.nfa.accepts_determinize w
  rw [← h] at haccepts
  exact haccepts

/-- A compilation has none of the faults that a check looks for, on whatever words. -/
theorem mismatch?_eq_none (h : c.dfa = c.nfa.determinize) (maxLength : Nat) :
    c.mismatch? maxLength = none := by
  have hwords : ∀ words : List (List Char),
      (words.find? fun w ↦ c.nfa.table.accepts w != c.dfa.table.accepts w) = none := by
    intro words
    apply List.find?_eq_none.2
    intro w _
    simp [accepts_dfa h]
  simp only [mismatch?, find?_foreignState, any_isEmpty_eq_false h, hwords]
  rfl

end Compilation

namespace Compiler

variable {compiler : Compiler} {source : String} {c : Compilation} {error : CompileError}

theorem length_alphabet_of_compile (h : (compiler.compile source).1 = .ok c) :
    c.nfa.alphabet.toList.length = (literals (compiler.config.alphabet.tokenize source)).toFinset.card := by
  obtain ⟨e, he, hnfa, -⟩ := exists_tree_of_compile h
  rw [Nfa.length_alphabet, hnfa, e.symbols_thompson, he.literals_eq]

theorem check_of_error (h : (compiler.compile source).1 = .error error) (maxLength : Nat) :
    (compiler.check source maxLength).1 = .ok (.rejected error.stage) := by
  rcases hcompile : compiler.compile source with ⟨result, next⟩
  rw [hcompile] at h
  obtain rfl : result = .error error := h
  rw [check, hcompile]

theorem check_of_ok (h : (compiler.compile source).1 = .ok c) (maxLength : Nat) :
    (compiler.check source maxLength).1 =
      .ok (.agreed (wordsUpTo c.nfa.alphabet.toList maxLength).length) := by
  obtain ⟨e, -, -, hdfa⟩ := exists_tree_of_compile h
  rcases hcompile : compiler.compile source with ⟨result, next⟩
  rw [hcompile] at h
  obtain rfl : result = .ok c := h
  rw [check, hcompile]
  simp only [Compilation.mismatch?_eq_none hdfa]

/-- A check never finds a mismatch: it says in which stage the compilation failed, or else how many words
there are over the literals of the source, all of which were compared. -/
theorem check_eq_verdict (compiler : Compiler) (source : String) (maxLength : Nat) :
    (compiler.check source maxLength).1 = .ok (match (compiler.compile source).1 with
      | .error error => .rejected error.stage
      | .ok _ => .agreed (∑ i ∈ Finset.range (maxLength + 1),
          (literals (compiler.config.alphabet.tokenize source)).toFinset.card ^ i)) := by
  cases h : (compiler.compile source).1 with
  | error error => exact check_of_error h maxLength
  | ok c => rw [check_of_ok h, length_wordsUpTo, length_alphabet_of_compile h]

end Compiler

end RegexCompiler
