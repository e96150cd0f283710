import Mathlib.Algebra.BigOperators.Group.Finset.Basic
import Mathlib.Algebra.Order.BigOperators.Group.Finset
import RegexCompiler.Proofs.Literals

namespace RegexCompiler

theorem OrderedSet.size_eq_card {α : Type} [LT α] [LE α] [Std.IsLinearOrder α] [Std.LawfulOrderLT α]
    [DecidableEq α] {s : OrderedSet α} {members : Finset α} (h : ∀ x, x ∈ s ↔ x ∈ members) :
    s.size = members.card := by
  have hmembers : s.toList.toFinset = members := by
    ext x
    rw [List.mem_toFinset, mem_toList, h]
  rw [← hmembers, List.toFinset_card_of_nodup s.nodup_toList, size]

theorem OrderedSet.length_filter_subsets_le (xs : List State) :
    ((subsets xs).filter fun s ↦ !s.isEmpty).length ≤ 2 ^ xs.length - 1 := by
  have hempty : ∅ ∈ subsets xs := by
    apply mem_subsets
    simp
  have hlt : ((subsets xs).filter fun s ↦ !s.isEmpty).length < (subsets xs).length := by
    apply List.length_filter_lt_length_iff_exists.2
    exact ⟨∅, hempty, by simp [isEmpty, EmptyCollection.emptyCollection]⟩
  rw [length_subsets] at hlt
  omega

namespace Nfa

variable {nfa : Nfa} {states : StateSet} {p q : State} {c : Char}

def landings (nfa : Nfa) (c : Char) : List State :=
  (nfa.transitions.filter fun t ↦ t.label = .symbol c).map Transition.target

theorem mem_landings (h : ⟨p, q, .symbol c⟩ ∈ nfa.transitions) : q ∈ nfa.landings c := by
  apply List.mem_map.2
  exact ⟨_, List.mem_filter.2 ⟨h, by simp⟩, rfl⟩

theorem length_landings (nfa : Nfa) (c : Char) : (nfa.landings c).length = nfa.symbols.count c := by
  have hlabel : ∀ label : Label, decide (label = .symbol c) = (label.symbol? == some c) := by
    intro label
    cases label <;> simp [Label.symbol?, Bool.beq_eq_decide_eq]
  rw [landings, List.length_map, ← List.countP_eq_length_filter, symbols, List.count_filterMap]
  simp only [hlabel]

/-- The states of the deterministic automaton that a symbol can lead to. -/
def arrivals (nfa : Nfa) (c : Char) : List StateSet :=
  ((OrderedSet.subsets (nfa.landings c)).filter fun s ↦ !s.isEmpty).map nfa.closure

theorem length_arrivals_le (nfa : Nfa) (c : Char) :
    (nfa.arrivals c).length ≤ 2 ^ nfa.symbols.count c - 1 := by
  rw [arrivals, List.length_map, ← length_landings]
  exact OrderedSet.length_filter_subsets_le _

theorem next_mem_arrivals (h : (nfa.table.next states c).isEmpty = false) :
    nfa.table.next states c ∈ nfa.arrivals c := by
  obtain ⟨q', hq'⟩ := isEmpty_eq_false_iff.1 h
  obtain ⟨q, hq, -⟩ := Table.mem_closure_iff.1 hq'
  have hsubset : nfa.table.move states c ∈ OrderedSet.subsets (nfa.landings c) := by
    apply OrderedSet.mem_subsets
    intro r hr
    obtain ⟨p, -, ht⟩ := Table.mem_move_iff.1 hr
    exact mem_landings ht
  have hempty : (nfa.table.move states c).isEmpty = false := isEmpty_eq_false_iff.2 ⟨q, hq⟩
  exact List.mem_map.2 ⟨_, List.mem_filter.2 ⟨hsubset, by simp [hempty]⟩, rfl⟩

theorem eq_start_or_mem_arrivals (h : states ∈ nfa.determinize.states) :
    states = nfa.determinize.start ∨ ∃ c ∈ nfa.symbols, states ∈ nfa.arrivals c := by
  obtain ⟨hempty, w, rfl⟩ := mem_determinize_iff.1 h
  rcases List.eq_nil_or_concat' w with rfl | ⟨u, c, rfl⟩
  · exact .inl rfl
  · rw [after_append_singleton] at hempty ⊢
    exact .inr ⟨c, mem_alphabet_iff.1 (mem_alphabet_of_next hempty), next_mem_arrivals hempty⟩

/-- A state of the deterministic automaton other than the start is the closure of targets of one symbol,
of which there are as many as the symbol has transitions. -/
theorem length_determinize_le_sum (nfa : Nfa) :
    nfa.determinize.states.length ≤
      1 + ∑ c ∈ nfa.symbols.toFinset, (2 ^ nfa.symbols.count c - 1) := by
  let reached : Finset StateSet := nfa.symbols.toFinset.biUnion fun c ↦ (nfa.arrivals c).toFinset
  have hsubset : nfa.determinize.states.toFinset ⊆ insert nfa.determinize.start reached := by
    intro states hstates
    rw [List.mem_toFinset] at hstates
    simpa [reached] using eq_start_or_mem_arrivals hstates
  have hreached : reached.card ≤ ∑ c ∈ nfa.symbols.toFinset, (2 ^ nfa.symbols.count c - 1) := by
    apply Finset.card_biUnion_le.trans
    apply Finset.sum_le_sum
    intro c _
    exact (List.toFinset_card_le _).trans (nfa.length_arrivals_le c)
  calc nfa.determinize.states.length
      = nfa.determinize.states.toFinset.card := (List.toFinset_card_of_nodup nodup_determinize).symm
    _ ≤ (insert nfa.determinize.start reached).card := Finset.card_le_card hsubset
    _ ≤ reached.card + 1 := Finset.card_insert_le _ _
    _ ≤ 1 + ∑ c ∈ nfa.symbols.toFinset, (2 ^ nfa.symbols.count c - 1) := by omega

end Nfa

theorem Token.sum_count_of_nodup {symbols : List Char} (h : symbols.Nodup) :
    ∑ c ∈ symbols.toFinset, (2 ^ symbols.count c - 1) = symbols.length := by
  have hone : ∀ c ∈ symbols.toFinset, 2 ^ symbols.count c - 1 = 1 := by
    intro c hc
    simp [List.count_eq_one_of_mem h (List.mem_toFinset.1 hc)]
  rw [Finset.sum_congr rfl hone, ← Finset.card_eq_sum_ones, List.toFinset_card_of_nodup h]

namespace Compiler

open Token

/-- The deterministic automaton of a source has a state for the start, and for each literal at most one
for every choice among its occurrences. If no literal occurs twice, there is at most one for each. -/
theorem compile_length_states_le (compiler : Compiler) (source : String) (c : Compilation)
    (h : (compiler.compile source).1 = .ok c) :
    c.dfa.states.length ≤ 1 + ∑ d ∈ (literals (compiler.config.alphabet.tokenize source)).toFinset,
        (2 ^ (literals (compiler.config.alphabet.tokenize source)).count d - 1) ∧
      ((literals (compiler.config.alphabet.tokenize source)).Nodup →
        c.dfa.states.length ≤ (literals (compiler.config.alphabet.tokenize source)).length + 1) := by
  obtain ⟨e, he, hnfa, hdfa⟩ := exists_tree_of_compile h
  have hbound := c.nfa.length_determinize_le_sum
  rw [← hdfa, hnfa, e.symbols_thompson, ← he.literals_eq] at hbound
  refine ⟨hbound, fun hnodup ↦ ?_⟩
  rw [sum_count_of_nodup hnodup] at hbound
  omega

theorem compile_length_states_le_star :
    (∃ c, (({} : Compiler).compile "(a|b)*a").1 = .ok c ∧ c.dfa.states.length ≤ 5) ∧
      ∃ c, (({} : Compiler).compile "(ab)*").1 = .ok c ∧ c.dfa.states.length ≤ 3 := by
  have hloop : Derives .expression (({} : Compiler).config.alphabet.tokenize "(a|b)*a")
      (.concat (.star (.alternation (.literal 'a') (.literal 'b'))) (.literal 'a')) := by
    have hgroup := Derives.group (.alternation (.term (.factor (.atom (.literal 'a'))))
      (.factor (.atom (.literal 'b'))))
    exact .term (.concat (.factor (.star (.atom hgroup))) (.atom (.literal 'a')))
  have hpairs : Derives .expression (({} : Compiler).config.alphabet.tokenize "(ab)*")
      (.star (.concat (.literal 'a') (.literal 'b'))) :=
    .term (.factor (.star (.atom (.group (.term (.concat (.factor (.atom (.literal 'a')))
      (.atom (.literal 'b'))))))))
  constructor
  · obtain ⟨c, hc, -⟩ := exists_compile_of_derives {} rfl hloop
    obtain ⟨hbound, -⟩ := compile_length_states_le {} "(a|b)*a" c hc
    exact ⟨c, hc, hbound.trans_eq (by decide)⟩
  · obtain ⟨c, hc, -⟩ := exists_compile_of_derives {} rfl hpairs
    obtain ⟨-, hbound⟩ := compile_length_states_le {} "(ab)*" c hc
    exact ⟨c, hc, hbound (by decide)⟩

end Compiler

end RegexCompiler
