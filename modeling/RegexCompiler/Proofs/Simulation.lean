import RegexCompiler.Nfa.Table
import RegexCompiler.Proofs.Reachability

namespace RegexCompiler.Nfa

open Relation

variable {nfa : Nfa} {p q r : State} {c : Char} {u v w : List Char}

theorem mem_targets_iff {label : Label} : q ∈ nfa.targets p label ↔ ⟨p, q, label⟩ ∈ nfa.transitions := by
  simp only [targets, List.mem_map, List.mem_filter, Bool.and_eq_true, decide_eq_true_eq]
  constructor
  · rintro ⟨t, ⟨ht, rfl, rfl⟩, rfl⟩
    exact ht
  · intro h
    exact ⟨_, ⟨h, rfl, rfl⟩, rfl⟩

namespace Path

theorem trans (h : Path nfa p u q) (h' : Path nfa q v r) : Path nfa p (u ++ v) r := by
  induction h with
  | refl => exact h'
  | epsilon ht _ ih => exact .epsilon ht (ih h')
  | symbol ht _ ih => exact .symbol ht (ih h')

theorem split (h : Path nfa p (u ++ v) r) : ∃ q, Path nfa p u q ∧ Path nfa q v r := by
  generalize hw : u ++ v = w at h
  induction h generalizing u with
  | refl p =>
    obtain ⟨rfl, rfl⟩ := List.append_eq_nil_iff.1 hw
    exact ⟨p, .refl p, .refl p⟩
  | epsilon ht _ ih =>
    obtain ⟨q, hq, hr⟩ := ih hw
    exact ⟨q, .epsilon ht hq, hr⟩
  | @symbol p p' r c w ht hrest ih =>
    cases u with
    | nil =>
      obtain rfl : v = c :: w := hw
      exact ⟨p, .refl p, .symbol ht hrest⟩
    | cons d u =>
      obtain ⟨rfl, htail⟩ := List.cons_eq_cons.1 hw
      obtain ⟨q, hq, hr⟩ := ih htail
      exact ⟨q, .symbol ht hq, hr⟩

theorem exists_symbol (h : Path nfa p (c :: w) r) :
    ∃ q q', Path nfa p [] q ∧ ⟨q, q', .symbol c⟩ ∈ nfa.transitions ∧ Path nfa q' w r := by
  generalize hw : c :: w = w' at h
  induction h with
  | refl => cases hw
  | epsilon ht _ ih =>
    obtain ⟨q, q', hq, ht', hr⟩ := ih hw
    exact ⟨q, q', .epsilon ht hq, ht', hr⟩
  | @symbol p p' r d w' ht hrest ih =>
    obtain ⟨rfl, rfl⟩ := List.cons_eq_cons.1 hw
    exact ⟨p, p', .refl p, ht, hrest⟩

theorem nil_iff : Path nfa p [] q ↔ ReflTransGen (fun p q ↦ ⟨p, q, .epsilon⟩ ∈ nfa.transitions) p q := by
  constructor
  · intro h
    generalize hw : [] = w at h
    induction h with
    | refl => exact .refl
    | epsilon ht _ ih => exact .head ht (ih hw)
    | symbol => cases hw
  · intro h
    induction h using ReflTransGen.head_induction_on with
    | refl => exact .refl q
    | head ht _ ih => exact .epsilon ht ih

end Path

def Closed (nfa : Nfa) (states : StateSet) : Prop := ∀ p ∈ states, ∀ q, Path nfa p [] q → q ∈ states

namespace Table

variable {table : nfa.Table} {states : StateSet}

theorem adjacent_epsilonSpace_iff :
    table.epsilonSpace.Adjacent p q ↔ ⟨p, q, .epsilon⟩ ∈ nfa.transitions := by
  simp only [Space.Adjacent, epsilonSpace, targets_eq, mem_targets_iff, id_eq, exists_eq_right]

theorem mem_closure_iff : q ∈ table.closure states ↔ ∃ p ∈ states, Path nfa p [] q := by
  have hstep : table.epsilonSpace.Adjacent = fun p q ↦ ⟨p, q, .epsilon⟩ ∈ nfa.transitions := by
    funext p q
    exact propext adjacent_epsilonSpace_iff
  rw [closure, OrderedSet.mem_ofList, Space.mem_discovered_iff, hstep]
  simp only [Path.nil_iff, OrderedSet.mem_toList]

theorem mem_move_iff : q ∈ table.move states c ↔ ∃ p ∈ states, ⟨p, q, .symbol c⟩ ∈ nfa.transitions := by
  simp only [move, OrderedSet.mem_ofList, List.mem_flatMap, OrderedSet.mem_toList, targets_eq,
    mem_targets_iff]

theorem closed_closure : nfa.Closed (table.closure states) := by
  intro p hp q hq
  obtain ⟨r, hr, hrp⟩ := mem_closure_iff.1 hp
  exact mem_closure_iff.2 ⟨r, hr, hrp.trans hq⟩

theorem closed_startSet : nfa.Closed table.startSet := closed_closure

theorem closed_next : nfa.Closed (table.next states c) := closed_closure

theorem mem_startSet_iff : q ∈ table.startSet ↔ Path nfa nfa.start [] q := by
  rw [startSet, mem_closure_iff]
  simp

theorem mem_next_iff (h : nfa.Closed states) :
    q ∈ table.next states c ↔ ∃ p ∈ states, Path nfa p [c] q := by
  simp only [next, mem_closure_iff, mem_move_iff]
  constructor
  · rintro ⟨p', ⟨p, hp, ht⟩, hq⟩
    exact ⟨p, hp, .symbol ht hq⟩
  · rintro ⟨p, hp, hq⟩
    obtain ⟨r, r', hr, ht, hq⟩ := hq.exists_symbol
    exact ⟨r', ⟨r, h p hp r hr, ht⟩, hq⟩

theorem exists_path_cons_iff (h : nfa.Closed states) :
    (∃ p ∈ states, Path nfa p (c :: w) q) ↔ ∃ p ∈ table.next states c, Path nfa p w q := by
  constructor
  · rintro ⟨p, hp, hq⟩
    obtain ⟨r, hr, hq⟩ := Path.split (u := [c]) hq
    exact ⟨r, (mem_next_iff h).2 ⟨p, hp, hr⟩, hq⟩
  · rintro ⟨r, hr, hq⟩
    obtain ⟨p, hp, hr⟩ := (mem_next_iff h).1 hr
    exact ⟨p, hp, hr.trans hq⟩

theorem not_mem_of_isEmpty (h : states.isEmpty = true) : q ∉ states := by
  rw [OrderedSet.isEmpty, List.isEmpty_iff] at h
  rw [← OrderedSet.mem_toList, h]
  exact List.not_mem_nil

theorem acceptsFrom_iff (h : nfa.Closed states) :
    table.acceptsFrom states w = true ↔ ∃ p ∈ states, Path nfa p w nfa.accept := by
  induction w generalizing states with
  | nil =>
    rw [acceptsFrom, decide_eq_true_eq]
    constructor
    · intro hmem
      exact ⟨_, hmem, .refl _⟩
    · rintro ⟨p, hp, hq⟩
      exact h p hp _ hq
  | cons c w ih =>
    rw [acceptsFrom, exists_path_cons_iff h]
    split
    · rename_i hempty
      constructor
      · intro h
        cases h
      · rintro ⟨p, hp, -⟩
        exact absurd hp (not_mem_of_isEmpty hempty)
    · exact ih closed_next

end Table

/-- The simulation accepts a word where a path through the automaton reads it. -/
theorem accepts_iff : nfa.accepts w = true ↔ Path nfa nfa.start w nfa.accept := by
  rw [accepts, Table.accepts, Table.acceptsFrom_iff Table.closed_startSet]
  simp only [Table.mem_startSet_iff]
  constructor
  · rintro ⟨p, hp, hq⟩
    exact hp.trans hq
  · intro h
    exact ⟨nfa.start, .refl _, h⟩

end RegexCompiler.Nfa
