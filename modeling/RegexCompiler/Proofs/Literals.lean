import RegexCompiler.Proofs.Trim

namespace RegexCompiler

def Token.literal? : Token → Option Char
  | literal c => some c
  | _ => none

def Token.literals (ts : List Token) : List Char := ts.filterMap literal?

def Expr.literals : Expr → List Char
  | literal c => [c]
  | concat left right => left.literals ++ right.literals
  | alternation left right => left.literals ++ right.literals
  | star inner => inner.literals

theorem Derives.literals_eq {nt : Nonterminal} {ts : List Token} {e : Expr} (h : Derives nt ts e) :
    Token.literals ts = e.literals := by
  induction h with
  | literal c => rfl
  | group _ ih =>
    rw [← ih]
    simp [Token.literals, Token.literal?, List.filterMap_cons]
  | star _ ih =>
    rw [Expr.literals, ← ih]
    simp [Token.literals, Token.literal?, List.filterMap_cons]
  | atom _ ih | factor _ ih | term _ ih => exact ih
  | concat _ _ ihl ihr | alternation _ _ ihl ihr =>
    rw [Expr.literals, ← ihl, ← ihr]
    simp [Token.literals, Token.literal?, List.filterMap_cons]

theorem Dfa.mem_alphabet_iff {dfa : Dfa} {c : Char} : c ∈ dfa.alphabet ↔ ∃ t ∈ dfa.transitions, t.symbol = c :=
  OrderedSet.mem_ofList.trans List.mem_map

namespace Nfa

variable {nfa first second inner : Nfa} {start accept q : State} {c : Char}

def symbols (nfa : Nfa) : List Char := nfa.transitions.filterMap fun t ↦ t.label.symbol?

theorem mem_alphabet_iff : c ∈ nfa.alphabet ↔ c ∈ nfa.symbols := OrderedSet.mem_ofList

theorem symbols_concat : (first.concat second).symbols = first.symbols ++ second.symbols := by
  simp [symbols, concat, Transition.epsilon, Label.symbol?]

theorem symbols_alternation :
    (alternation start accept first second).symbols = first.symbols ++ second.symbols := by
  simp [symbols, alternation, Transition.epsilon, Label.symbol?]

theorem symbols_star : (star start accept inner).symbols = inner.symbols := by
  simp [symbols, star, Transition.epsilon, Label.symbol?]

theorem exists_of_mem_symbols (h : c ∈ nfa.symbols) : ∃ p q, ⟨p, q, .symbol c⟩ ∈ nfa.transitions := by
  obtain ⟨⟨p, q, label⟩, ht, hlabel⟩ := List.mem_filterMap.1 h
  cases label with
  | epsilon => cases hlabel
  | symbol d =>
    cases hlabel
    exact ⟨p, q, ht⟩

theorem Trim.exists_transition (h : nfa.Trim) (hc : c ∈ nfa.symbols) :
    ∃ t ∈ nfa.determinize.transitions, t.symbol = c := by
  obtain ⟨p, q, ht⟩ := exists_of_mem_symbols hc
  have hp : p ∈ nfa.states := mem_states_iff.2 (.inr (.inr ⟨_, ht, .inl rfl⟩))
  obtain ⟨w, hw⟩ := (h p hp).1
  have hmem : p ∈ nfa.after w := mem_after_iff.2 hw
  have hnext : q ∈ nfa.table.next (nfa.after w) c :=
    (Table.mem_next_iff (closed_after w)).2 ⟨p, hmem, .symbol ht (.refl q)⟩
  have hstate : nfa.after w ∈ nfa.determinize.states :=
    mem_determinize_iff.2 ⟨isEmpty_eq_false_iff.2 ⟨p, hmem⟩, w, rfl⟩
  refine ⟨⟨nfa.after w, c, nfa.table.next (nfa.after w) c⟩, ?_, rfl⟩
  exact mem_determinize_transitions_iff.2 ⟨hstate, rfl, isEmpty_eq_false_iff.2 ⟨q, hnext⟩⟩

/-- Without states off every accepting path, no symbol is lost on the way to the subset automaton. -/
theorem Trim.alphabet_determinize (h : nfa.Trim) : nfa.determinize.alphabet = nfa.alphabet := by
  ext c
  rw [Dfa.mem_alphabet_iff]
  constructor
  · intro hexists
    obtain ⟨t, ht, rfl⟩ := hexists
    exact symbol_mem_alphabet ht
  · intro hc
    exact h.exists_transition (mem_alphabet_iff.1 hc)

end Nfa

theorem Expr.symbols_thompson (e : Expr) (n : Nat) : (e.thompson n).symbols = e.literals := by
  induction e generalizing n with
  | literal c => rfl
  | concat left right ihl ihr => rw [thompson, Nfa.symbols_concat, ihl, ihr, literals]
  | alternation left right ihl ihr => rw [thompson, Nfa.symbols_alternation, ihl, ihr, literals]
  | star inner ih => rw [thompson, Nfa.symbols_star, ih, literals]

end RegexCompiler
