import Mathlib.Data.List.Perm.Subperm
import RegexCompiler.Proofs.Simulation

namespace RegexCompiler

theorem OrderedSet.size_ofList_of_nodup {α : Type} [LT α] [DecidableLT α] [LE α] [Std.IsLinearOrder α]
    [Std.LawfulOrderLT α] {xs : List α} (h : xs.Nodup) : (ofList xs).size = xs.length := by
  have hperm : (ofList xs).toList.Perm xs :=
    (List.perm_ext_iff_of_nodup (nodup_toList _) h).2 fun x ↦ mem_ofList
  exact hperm.length_eq

namespace Nfa

variable {nfa : Nfa} {p q : State} {ts : List Transition} {w : List Char}

inductive Walk (nfa : Nfa) : State → List Transition → State → Prop
  | nil (q : State) : Walk nfa q [] q
  | cons {t : Transition} {ts : List Transition} {q : State} :
    t ∈ nfa.transitions → Walk nfa t.target ts q → Walk nfa t.source (t :: ts) q

def spelled (ts : List Transition) : List Char := ts.filterMap fun t ↦ t.label.symbol?

theorem spelled_eq_nil_iff : spelled ts = [] ↔ ∀ t ∈ ts, t.label = .epsilon := by
  rw [spelled, List.filterMap_eq_nil_iff]
  refine forall₂_congr fun t _ ↦ ?_
  cases t.label <;> simp [Label.symbol?]

theorem Walk.path (h : Walk nfa p ts q) : Path nfa p (spelled ts) q := by
  induction h with
  | nil q => exact .refl q
  | @cons t ts q ht _ ih =>
    obtain ⟨p, p', label⟩ := t
    cases label with
    | epsilon => exact .epsilon ht ih
    | symbol c => exact .symbol ht ih

theorem Path.exists_walk (h : Path nfa p w q) : ∃ ts, Walk nfa p ts q ∧ spelled ts = w := by
  induction h with
  | refl q => exact ⟨[], .nil q, rfl⟩
  | @epsilon p p' q w ht _ ih =>
    obtain ⟨ts, hts, hw⟩ := ih
    exact ⟨⟨p, p', .epsilon⟩ :: ts, .cons ht hts, hw⟩
  | @symbol p p' q c w ht _ ih =>
    obtain ⟨ts, hts, hw⟩ := ih
    exact ⟨⟨p, p', .symbol c⟩ :: ts, .cons ht hts, congrArg (c :: ·) hw⟩

theorem path_iff_exists_walk : Path nfa p w q ↔ ∃ ts, Walk nfa p ts q ∧ spelled ts = w := by
  refine ⟨Path.exists_walk, fun h ↦ ?_⟩
  obtain ⟨ts, hts, hw⟩ := h
  rw [← hw]
  exact hts.path

namespace Table

variable (table : nfa.Table) (states : StateSet)

theorem length_search_epsilonSpace :
    (table.epsilonSpace.search states.toList).length = (table.closure states).size := by
  have hnodup := table.epsilonSpace.nodup_discovered states.toList states.nodup_toList
  rw [Space.length_search, closure, OrderedSet.size_ofList_of_nodup hnodup]

theorem size_closure_le : (table.closure states).size ≤ states.size + nfa.transitions.length := by
  -- States that the automaton does not know stay where they are: all others are targets.
  have hsubset : (table.closure states).toList ⊆
      states.toList ++ nfa.transitions.map Transition.target := by
    intro q hq
    exact List.mem_append.2 (mem_of_mem_closure hq)
  have hlength := (table.closure states).nodup_toList.length_le_of_subset hsubset
  rwa [List.length_append, List.length_map] at hlength

end Table

/-- The simulation follows walks and nothing else. A closure is what epsilon transitions alone lead to, found
by a search that takes up each of its states once; a word is accepted where a walk from the start to the
accepting state spells it. -/
theorem simulation_follows_walks (nfa : Nfa) :
    (∀ states : StateSet,
        (nfa.table.epsilonSpace.search states.toList).length = (nfa.closure states).size ∧
          (nfa.closure states).size ≤ states.size + nfa.transitions.length ∧
            ∀ q, q ∈ nfa.closure states ↔
              ∃ p ∈ states, ∃ ts, nfa.Walk p ts q ∧ ∀ t ∈ ts, t.label = .epsilon) ∧
      ∀ w, nfa.accepts w = true ↔ ∃ ts, nfa.Walk nfa.start ts nfa.accept ∧ spelled ts = w := by
  refine ⟨fun states ↦ ⟨?_, ?_, fun q ↦ ?_⟩, fun w ↦ ?_⟩
  · exact nfa.table.length_search_epsilonSpace states
  · exact nfa.table.size_closure_le states
  · rw [closure, Table.mem_closure_iff]
    simp only [path_iff_exists_walk, spelled_eq_nil_iff]
  · rw [accepts_iff, path_iff_exists_walk]

end Nfa

end RegexCompiler
