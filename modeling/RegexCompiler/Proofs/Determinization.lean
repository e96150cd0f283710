import Mathlib.Algebra.Order.Ring.Nat
import Mathlib.Data.List.Induction
import Mathlib.Data.List.Nodup
import Mathlib.Data.List.Perm.Subperm
import RegexCompiler.Dfa.Subsets
import RegexCompiler.Dfa.Table
import RegexCompiler.Proofs.Simulation

namespace RegexCompiler

open Relation

theorem OrderedSet.length_subsets (xs : List State) : (subsets xs).length = 2 ^ xs.length := by
  induction xs with
  | nil => rfl
  | cons x xs ih =>
    rw [subsets, List.length_append, List.length_map, ih, List.length_cons, Nat.pow_succ]
    omega

namespace Dfa

variable {dfa : Dfa} {s s' : StateSet} {c : Char} {u v : List Char}

theorem mem_of_next_eq_some (h : dfa.next s c = some s') : ⟨s, c, s'⟩ ∈ dfa.transitions := by
  obtain ⟨t, hfind, rfl⟩ := Option.map_eq_some_iff.1 h
  have ht := List.find?_some hfind
  simp only [Bool.and_eq_true, decide_eq_true_eq] at ht
  obtain ⟨rfl, rfl⟩ := ht
  exact List.mem_of_find?_eq_some hfind

theorem not_mem_of_next_eq_none (h : dfa.next s c = none) : ⟨s, c, s'⟩ ∉ dfa.transitions := by
  intro ht
  exact List.find?_eq_none.1 (Option.map_eq_none_iff.1 h) _ ht (by simp)

theorem run_append (dfa : Dfa) (s : StateSet) (u v : List Char) :
    dfa.run s (u ++ v) = (dfa.run s u).bind fun s' ↦ dfa.run s' v := by
  induction u generalizing s with
  | nil => rfl
  | cons c u ih =>
    rw [List.cons_append, run, run]
    cases dfa.next s c with
    | none => rfl
    | some s' => exact ih s'

theorem run_append_singleton_eq_some_iff :
    dfa.run s (u ++ [c]) = some s' ↔ ∃ t, dfa.run s u = some t ∧ dfa.next t c = some s' := by
  rw [run_append, Option.bind_eq_some_iff]
  simp [run]

theorem accepts_eq_any (dfa : Dfa) (w : List Char) :
    dfa.accepts w = (dfa.run dfa.start w).any dfa.isAccepting := by
  rw [accepts, Table.accepts, Table.run_eq]

theorem accepts_iff (dfa : Dfa) (w : List Char) :
    dfa.accepts w = true ↔ ∃ s, dfa.run dfa.start w = some s ∧ dfa.isAccepting s = true := by
  rw [accepts_eq_any, Option.any_eq_true]

end Dfa

namespace Nfa

variable {nfa : Nfa} {states states' : StateSet} {c : Char} {p q : State} {w : List Char}

def after (nfa : Nfa) (w : List Char) : StateSet := w.foldl nfa.table.next nfa.table.startSet

theorem after_append_singleton (w : List Char) (c : Char) :
    nfa.after (w ++ [c]) = nfa.table.next (nfa.after w) c := by
  rw [after, List.foldl_append]
  rfl

theorem closed_after (w : List Char) : nfa.Closed (nfa.after w) := by
  induction w using List.reverseRecOn with
  | nil => exact Table.closed_startSet
  | append_singleton w c _ =>
    rw [after_append_singleton]
    exact Table.closed_next

theorem mem_after_iff : q ∈ nfa.after w ↔ Path nfa nfa.start w q := by
  induction w using List.reverseRecOn generalizing q with
  | nil => exact Table.mem_startSet_iff
  | append_singleton w c ih =>
    rw [after_append_singleton, Table.mem_next_iff (closed_after w)]
    simp only [ih]
    constructor
    · rintro ⟨p, hp, hq⟩
      exact hp.trans hq
    · exact Path.split

theorem isEmpty_eq_false_iff : states.isEmpty = false ↔ ∃ q, q ∈ states := by
  rw [OrderedSet.isEmpty, List.isEmpty_eq_false_iff_exists_mem]
  rfl

theorem mem_alphabet_of_symbol (h : ⟨p, q, .symbol c⟩ ∈ nfa.transitions) : c ∈ nfa.alphabet := by
  rw [alphabet, OrderedSet.mem_ofList]
  exact List.mem_filterMap.2 ⟨_, h, rfl⟩

theorem mem_alphabet_of_next (h : (nfa.table.next states c).isEmpty = false) : c ∈ nfa.alphabet := by
  obtain ⟨q, hq⟩ := isEmpty_eq_false_iff.1 h
  obtain ⟨p', hp', -⟩ := Table.mem_closure_iff.1 hq
  obtain ⟨p, -, ht⟩ := Table.mem_move_iff.1 hp'
  exact mem_alphabet_of_symbol ht

theorem subsetTransition?_eq_some_iff {t : Dfa.Transition} :
    nfa.table.subsetTransition? states c = some t ↔
      (nfa.table.next states c).isEmpty = false ∧ t = ⟨states, c, nfa.table.next states c⟩ := by
  dsimp only [Table.subsetTransition?]
  split
  · simp [*]
  · simp [*, eq_comm]

theorem mem_subsetMoves_iff {t : Dfa.Transition} :
    t ∈ nfa.table.subsetSpace.moves states ↔ t.source = states ∧
      t.target = nfa.table.next states t.symbol ∧ t.target.isEmpty = false := by
  simp only [Table.subsetSpace, List.mem_filterMap, subsetTransition?_eq_some_iff]
  constructor
  · rintro ⟨c, -, hempty, rfl⟩
    exact ⟨rfl, rfl, hempty⟩
  · rintro ⟨rfl, htarget, hempty⟩
    rw [htarget] at hempty
    refine ⟨t.symbol, mem_alphabet_of_next hempty, hempty, ?_⟩
    rw [← htarget]

theorem adjacent_subsetSpace_iff :
    nfa.table.subsetSpace.Adjacent states states' ↔
      (∃ c, states' = nfa.table.next states c) ∧ states'.isEmpty = false := by
  simp only [Space.Adjacent, mem_subsetMoves_iff]
  constructor
  · rintro ⟨t, ⟨-, htarget, hempty⟩, rfl⟩
    exact ⟨⟨t.symbol, htarget⟩, hempty⟩
  · rintro ⟨⟨c, rfl⟩, hempty⟩
    exact ⟨⟨states, c, _⟩, ⟨rfl, rfl, hempty⟩, rfl⟩

theorem isEmpty_startSet : (nfa.after []).isEmpty = false :=
  isEmpty_eq_false_iff.2 ⟨nfa.start, mem_after_iff.2 (.refl _)⟩

theorem isEmpty_after_of_append {u v : List Char} (h : (nfa.after (u ++ v)).isEmpty = false) :
    (nfa.after u).isEmpty = false := by
  obtain ⟨q, hq⟩ := isEmpty_eq_false_iff.1 h
  obtain ⟨p, hp, -⟩ := (mem_after_iff.1 hq).split
  exact isEmpty_eq_false_iff.2 ⟨p, mem_after_iff.2 hp⟩

theorem mem_determinize_iff_reachable :
    states ∈ nfa.determinize.states ↔
      ReflTransGen nfa.table.subsetSpace.Adjacent nfa.table.startSet states := by
  refine Space.mem_discovered_iff.trans ?_
  simp

/-- The states of the deterministic automaton are the sets of states that words lead to. -/
theorem mem_determinize_iff :
    states ∈ nfa.determinize.states ↔ states.isEmpty = false ∧ ∃ w, nfa.after w = states := by
  rw [mem_determinize_iff_reachable]
  constructor
  · intro h
    induction h with
    | refl => exact ⟨isEmpty_startSet, [], rfl⟩
    | tail _ hadjacent ih =>
      obtain ⟨-, w, rfl⟩ := ih
      obtain ⟨⟨c, rfl⟩, hempty⟩ := adjacent_subsetSpace_iff.1 hadjacent
      exact ⟨hempty, w ++ [c], after_append_singleton w c⟩
  · rintro ⟨hempty, w, rfl⟩
    induction w using List.reverseRecOn with
    | nil => exact .refl
    | append_singleton w c ih =>
      refine .tail (ih (isEmpty_after_of_append hempty)) (adjacent_subsetSpace_iff.2 ⟨⟨c, ?_⟩, hempty⟩)
      exact after_append_singleton w c

theorem startSet_mem_determinize : nfa.table.startSet ∈ nfa.determinize.states :=
  mem_determinize_iff.2 ⟨isEmpty_startSet, [], rfl⟩

theorem next_mem_determinize (h : states ∈ nfa.determinize.states)
    (hempty : (nfa.table.next states c).isEmpty = false) :
    nfa.table.next states c ∈ nfa.determinize.states := by
  obtain ⟨-, w, rfl⟩ := mem_determinize_iff.1 h
  exact mem_determinize_iff.2 ⟨hempty, w ++ [c], after_append_singleton w c⟩

theorem nodup_determinize : nfa.determinize.states.Nodup :=
  Space.nodup_discovered _ _ (List.nodup_singleton _)

theorem mem_determinize_transitions_iff {t : Dfa.Transition} :
    t ∈ nfa.determinize.transitions ↔ t.source ∈ nfa.determinize.states ∧
      t.target = nfa.table.next t.source t.symbol ∧ t.target.isEmpty = false := by
  have hnodes := (nfa.table.subsetSpace.nodes_search [nfa.table.startSet]).mem_iff (a := t.source)
  change t ∈ nfa.subsetSearch.flatMap Visit.moves ↔ _
  rw [List.mem_flatMap]
  constructor
  · rintro ⟨visit, hvisit, ht⟩
    rw [Space.moves_of_mem_visits hvisit, mem_subsetMoves_iff] at ht
    obtain ⟨hsource, htarget⟩ := ht
    rw [← hsource] at htarget
    exact ⟨hnodes.1 (List.mem_map.2 ⟨visit, hvisit, hsource.symm⟩), htarget⟩
  · rintro ⟨hsource, htarget⟩
    obtain ⟨visit, hvisit, hnode⟩ := List.mem_map.1 (hnodes.2 hsource)
    refine ⟨visit, hvisit, ?_⟩
    rw [Space.moves_of_mem_visits hvisit, mem_subsetMoves_iff, hnode]
    exact ⟨rfl, htarget⟩

theorem symbol_mem_alphabet {t : Dfa.Transition} (h : t ∈ nfa.determinize.transitions) :
    t.symbol ∈ nfa.alphabet := by
  obtain ⟨-, htarget, hempty⟩ := mem_determinize_transitions_iff.1 h
  rw [htarget] at hempty
  exact mem_alphabet_of_next hempty

theorem next_determinize (h : states ∈ nfa.determinize.states) (c : Char) :
    nfa.determinize.next states c =
      if (nfa.table.next states c).isEmpty then none else some (nfa.table.next states c) := by
  cases hnext : nfa.determinize.next states c with
  | none =>
    have hempty : (nfa.table.next states c).isEmpty = true := by
      by_contra hne
      rw [Bool.not_eq_true] at hne
      exact Dfa.not_mem_of_next_eq_none hnext (mem_determinize_transitions_iff.2 ⟨h, rfl, hne⟩)
    rw [if_pos hempty]
  | some states' =>
    obtain ⟨-, htarget, hempty⟩ := mem_determinize_transitions_iff.1 (Dfa.mem_of_next_eq_some hnext)
    dsimp only at htarget hempty
    rw [← htarget, hempty]
    rfl

theorem next_determinize_eq_some_iff {s s' : StateSet} :
    nfa.determinize.next s c = some s' ↔ ⟨s, c, s'⟩ ∈ nfa.determinize.transitions := by
  constructor
  · exact Dfa.mem_of_next_eq_some
  · intro h
    obtain ⟨hs, hs', hempty⟩ := mem_determinize_transitions_iff.1 h
    dsimp only at hs hs' hempty
    rw [next_determinize hs, ← hs', hempty]
    rfl

theorem accepting_determinize :
    nfa.determinize.accepting = nfa.determinize.states.filter (nfa.accept ∈ ·) := rfl

theorem isAccepting_determinize_iff :
    nfa.determinize.isAccepting states = true ↔ states ∈ nfa.determinize.states ∧ nfa.accept ∈ states := by
  rw [Dfa.isAccepting, decide_eq_true_eq, accepting_determinize, List.mem_filter, decide_eq_true_eq]

/-- A run of the deterministic automaton is in the set of states that the word leads to, while there are any. -/
theorem run_determinize_eq_some_iff :
    nfa.determinize.run nfa.determinize.start w = some states ↔
      nfa.after w = states ∧ states.isEmpty = false := by
  induction w using List.reverseRecOn generalizing states with
  | nil =>
    constructor
    · intro h
      cases h
      exact ⟨rfl, isEmpty_startSet⟩
    · intro h
      obtain ⟨rfl, -⟩ := h
      rfl
  | append_singleton w c ih =>
    rw [Dfa.run_append_singleton_eq_some_iff, after_append_singleton]
    simp only [ih, next_determinize_eq_some_iff, mem_determinize_transitions_iff, mem_determinize_iff]
    constructor
    · intro h
      obtain ⟨s, ⟨rfl, -⟩, -, rfl, hempty⟩ := h
      exact ⟨rfl, hempty⟩
    · intro h
      obtain ⟨rfl, hempty⟩ := h
      have hbefore : (nfa.after w).isEmpty = false := by
        rw [← after_append_singleton] at hempty
        exact isEmpty_after_of_append hempty
      exact ⟨nfa.after w, ⟨rfl, hbefore⟩, ⟨hbefore, w, rfl⟩, rfl, hempty⟩

theorem isSome_run_determinize_iff :
    (nfa.determinize.run nfa.determinize.start w).isSome = true ↔ ∃ q, Path nfa nfa.start w q := by
  rw [Option.isSome_iff_exists]
  simp only [run_determinize_eq_some_iff]
  constructor
  · intro h
    obtain ⟨s, rfl, hempty⟩ := h
    obtain ⟨q, hq⟩ := isEmpty_eq_false_iff.1 hempty
    exact ⟨q, mem_after_iff.1 hq⟩
  · intro h
    obtain ⟨q, hq⟩ := h
    exact ⟨_, rfl, isEmpty_eq_false_iff.2 ⟨q, mem_after_iff.2 hq⟩⟩

/-- Deterministic and nondeterministic runs go on alike from a common state. -/
theorem run_determinize (h : states ∈ nfa.determinize.states) (w : List Char) :
    (nfa.determinize.run states w).any nfa.determinize.isAccepting = nfa.table.acceptsFrom states w := by
  induction w generalizing states with
  | nil =>
    rw [Dfa.run, Option.any_some, Table.acceptsFrom, Bool.eq_iff_iff, isAccepting_determinize_iff,
      decide_eq_true_eq]
    exact and_iff_right h
  | cons c w ih =>
    rw [Dfa.run, Table.acceptsFrom, next_determinize h]
    split
    · rfl
    · rename_i hempty
      exact ih (next_mem_determinize h (by simpa using hempty))

theorem accepts_determinize (w : List Char) : nfa.determinize.accepts w = nfa.accepts w := by
  rw [Dfa.accepts_eq_any]
  exact run_determinize startSet_mem_determinize w

/-- The worklist takes up every state of the deterministic automaton once. -/
theorem length_subsetSearch : nfa.subsetSearch.length = nfa.determinize.states.length :=
  Space.length_search _ _

theorem start_mem_states : nfa.start ∈ nfa.states := by simp [Nfa.states]

theorem target_mem_states {t : Transition} (h : t ∈ nfa.transitions) : t.target ∈ nfa.states := by
  simp only [Nfa.states, OrderedSet.mem_ofList, List.mem_cons, List.mem_flatMap]
  exact .inr (.inr ⟨t, h, by simp⟩)

theorem mem_states_of_path (h : Path nfa p w q) (hp : p ∈ nfa.states) : q ∈ nfa.states := by
  induction h with
  | refl => exact hp
  | epsilon ht _ ih => exact ih (target_mem_states ht)
  | symbol ht _ ih => exact ih (target_mem_states ht)

theorem length_determinize_le : nfa.determinize.states.length ≤ 2 ^ nfa.states.size := by
  have hsubset : nfa.determinize.states ⊆ OrderedSet.subsets nfa.states.toList := by
    intro states hstates
    obtain ⟨-, w, rfl⟩ := mem_determinize_iff.1 hstates
    exact OrderedSet.mem_subsets fun q hq ↦ mem_states_of_path (mem_after_iff.1 hq) start_mem_states
  have hlength := nodup_determinize.length_le_of_subset hsubset
  rwa [OrderedSet.length_subsets] at hlength

/-- The subset construction ends, having taken up each set of states at most once, and keeps the language
of every automaton. -/
theorem determinize_sound (nfa : Nfa) :
    nfa.subsetSearch.length ≤ 2 ^ nfa.states.size ∧
      ∀ w : List Char, nfa.determinize.accepts w = nfa.accepts w :=
  ⟨length_subsetSearch.trans_le length_determinize_le, accepts_determinize⟩

end Nfa

end RegexCompiler
