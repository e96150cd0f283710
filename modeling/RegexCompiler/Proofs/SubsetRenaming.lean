import Mathlib.Logic.Equiv.Basic
import RegexCompiler.Proofs.Determinization
import RegexCompiler.Proofs.Renaming
import RegexCompiler.Proofs.SearchRenaming

namespace RegexCompiler

namespace StateSet

variable {g : State → State} {states : StateSet} {p q : State}

def image (g : State → State) (states : StateSet) : StateSet := .ofList (states.toList.map g)

theorem mem_image : q ∈ states.image g ↔ ∃ p ∈ states, g p = q := by
  simp only [image, OrderedSet.mem_ofList, List.mem_map, OrderedSet.mem_toList]

theorem mem_image_of_injective (hg : Function.Injective g) : g p ∈ states.image g ↔ p ∈ states := by
  simp only [mem_image, hg.eq_iff, exists_eq_right]

theorem image_injective (hg : Function.Injective g) : Function.Injective (image g) := by
  intro s s' h
  ext p
  rw [← mem_image_of_injective hg, h, mem_image_of_injective hg]

theorem image_singleton (g : State → State) (q : State) : image g (.ofList [q]) = .ofList [g q] := by
  ext p
  simp [mem_image, eq_comm]

theorem isEmpty_image (g : State → State) (states : StateSet) :
    (states.image g).isEmpty = states.isEmpty := by
  cases hempty : states.isEmpty with
  | false =>
    obtain ⟨p, hp⟩ := Nfa.isEmpty_eq_false_iff.1 hempty
    exact Nfa.isEmpty_eq_false_iff.2 ⟨g p, mem_image.2 ⟨p, hp, rfl⟩⟩
  | true =>
    by_contra hne
    rw [Bool.not_eq_true] at hne
    obtain ⟨q, hq⟩ := Nfa.isEmpty_eq_false_iff.1 hne
    obtain ⟨p, hp, -⟩ := mem_image.1 hq
    exact Nfa.Table.not_mem_of_isEmpty hempty hp

end StateSet

namespace Dfa

variable {g : State → State}

def Transition.rename (g : State → State) (t : Transition) : Transition :=
  ⟨t.source.image g, t.symbol, t.target.image g⟩

def rename (g : State → State) (dfa : Dfa) : Dfa where
  start := dfa.start.image g
  states := dfa.states.map (.image g)
  accepting := dfa.accepting.map (.image g)
  transitions := dfa.transitions.map (.rename g)

def index (dfa : Dfa) (s : StateSet) : Nat := dfa.states.idxOf s

def acceptingIndices (dfa : Dfa) : List Nat := dfa.accepting.map dfa.index

def indexedTransitions (dfa : Dfa) : List (Nat × Char × Nat) :=
  dfa.transitions.map fun t ↦ (dfa.index t.source, t.symbol, dfa.index t.target)

theorem index_rename (hg : Function.Injective g) (dfa : Dfa) (s : StateSet) :
    (dfa.rename g).index (s.image g) = dfa.index s := by
  have hsame (s' : StateSet) : (s'.image g == s.image g) = (s' == s) := by
    rw [Bool.eq_iff_iff, beq_iff_eq, beq_iff_eq]
    exact (StateSet.image_injective hg).eq_iff
  simp only [index, rename, List.idxOf, List.findIdx_map, Function.comp_def, hsame]

theorem acceptingIndices_rename (hg : Function.Injective g) (dfa : Dfa) :
    (dfa.rename g).acceptingIndices = dfa.acceptingIndices := by
  have haccepting : (dfa.rename g).accepting = dfa.accepting.map (.image g) := rfl
  simp only [acceptingIndices, haccepting, List.map_map, Function.comp_def, index_rename hg]

theorem indexedTransitions_rename (hg : Function.Injective g) (dfa : Dfa) :
    (dfa.rename g).indexedTransitions = dfa.indexedTransitions := by
  have htransitions : (dfa.rename g).transitions = dfa.transitions.map (.rename g) := rfl
  simp only [indexedTransitions, htransitions, List.map_map, Function.comp_def, Transition.rename,
    index_rename hg]

end Dfa

namespace Nfa

/-- The second automaton has the transitions of the first one under other names, in whatever order and
however often it lists them. -/
structure Renames (nfa nfa' : Nfa) (g : State → State) : Prop where
  injective : Function.Injective g
  start : nfa'.start = g nfa.start
  accept : nfa'.accept = g nfa.accept
  mem_transitions_iff : ∀ t, t ∈ nfa'.transitions ↔ t ∈ (nfa.rename g).transitions

namespace Renames

variable {nfa nfa' : Nfa} {g : State → State} {p q : State} {label : Label} {w : List Char}

theorem leave_iff (h : nfa.Renames nfa' g) :
    ⟨g p, q, label⟩ ∈ nfa'.transitions ↔ ∃ p', ⟨p, p', label⟩ ∈ nfa.transitions ∧ g p' = q := by
  rw [h.mem_transitions_iff]
  constructor
  · intro ht
    obtain ⟨⟨r, p', label'⟩, hmem, heq⟩ := List.mem_map.1 ht
    obtain ⟨hsource, htarget, hlabel⟩ := Transition.mk.inj heq
    have hr : r = p := h.injective hsource
    have hlabel : label' = label := hlabel
    rw [hr, hlabel] at hmem
    exact ⟨p', hmem, htarget⟩
  · intro ht
    obtain ⟨p', hmem, rfl⟩ := ht
    exact List.mem_map.2 ⟨_, hmem, rfl⟩

theorem path (h : nfa.Renames nfa' g) (hpath : Path nfa p w q) : Path nfa' (g p) w (g q) := by
  induction hpath with
  | refl q => exact .refl (g q)
  | epsilon ht _ ih => exact .epsilon (h.leave_iff.2 ⟨_, ht, rfl⟩) ih
  | symbol ht _ ih => exact .symbol (h.leave_iff.2 ⟨_, ht, rfl⟩) ih

theorem exists_path (h : nfa.Renames nfa' g) (hpath : Path nfa' (g p) w q) :
    ∃ p', Path nfa p w p' ∧ g p' = q := by
  generalize hp : g p = r at hpath
  induction hpath generalizing p with
  | refl r => exact ⟨p, .refl p, hp⟩
  | epsilon ht _ ih =>
    rw [← hp] at ht
    obtain ⟨r, ht, hr⟩ := h.leave_iff.1 ht
    obtain ⟨p', hp', heq⟩ := ih hr
    exact ⟨p', .epsilon ht hp', heq⟩
  | symbol ht _ ih =>
    rw [← hp] at ht
    obtain ⟨r, ht, hr⟩ := h.leave_iff.1 ht
    obtain ⟨p', hp', heq⟩ := ih hr
    exact ⟨p', .symbol ht hp', heq⟩

theorem closure_eq (h : nfa.Renames nfa' g) (states : StateSet) :
    nfa'.table.closure (states.image g) = (nfa.table.closure states).image g := by
  ext q
  simp only [Table.mem_closure_iff, StateSet.mem_image]
  constructor
  · intro hq
    obtain ⟨r, ⟨p, hp, rfl⟩, hpath⟩ := hq
    obtain ⟨p', hp', rfl⟩ := h.exists_path hpath
    exact ⟨p', ⟨p, hp, hp'⟩, rfl⟩
  · intro hq
    obtain ⟨p', ⟨p, hp, hp'⟩, rfl⟩ := hq
    exact ⟨g p, ⟨p, hp, rfl⟩, h.path hp'⟩

theorem move_eq (h : nfa.Renames nfa' g) (states : StateSet) (c : Char) :
    nfa'.table.move (states.image g) c = (nfa.table.move states c).image g := by
  ext q
  simp only [Table.mem_move_iff, StateSet.mem_image]
  constructor
  · intro hq
    obtain ⟨r, ⟨p, hp, rfl⟩, ht⟩ := hq
    obtain ⟨p', ht', rfl⟩ := h.leave_iff.1 ht
    exact ⟨p', ⟨p, hp, ht'⟩, rfl⟩
  · intro hq
    obtain ⟨p', ⟨p, hp, ht⟩, rfl⟩ := hq
    exact ⟨g p, ⟨p, hp, rfl⟩, h.leave_iff.2 ⟨p', ht, rfl⟩⟩

theorem startSet_eq (h : nfa.Renames nfa' g) : nfa'.table.startSet = nfa.table.startSet.image g := by
  rw [Table.startSet, h.start, ← StateSet.image_singleton, h.closure_eq]
  rfl

theorem next_eq (h : nfa.Renames nfa' g) (states : StateSet) (c : Char) :
    nfa'.table.next (states.image g) c = (nfa.table.next states c).image g := by
  rw [Table.next, h.move_eq, h.closure_eq]
  rfl

theorem alphabet_eq (h : nfa.Renames nfa' g) : nfa'.alphabet = nfa.alphabet := by
  ext c
  simp only [alphabet, OrderedSet.mem_ofList, List.mem_filterMap, h.mem_transitions_iff, Nfa.rename,
    List.mem_map, exists_exists_and_eq_and, Transition.rename]

theorem subsetTransition?_eq (h : nfa.Renames nfa' g) (states : StateSet) (c : Char) :
    nfa'.table.subsetTransition? (states.image g) c =
      (nfa.table.subsetTransition? states c).map (.rename g) := by
  simp only [Table.subsetTransition?, h.next_eq, StateSet.isEmpty_image]
  split
  · rfl
  · rfl

theorem subsetSpace (h : nfa.Renames nfa' g) :
    nfa.table.subsetSpace.Renames nfa'.table.subsetSpace (.image g) (.rename g) where
  injective := StateSet.image_injective h.injective
  moves states := by
    -- Symbols are tried in their own order, which has nothing to do with the names of the states.
    simp only [Table.subsetSpace, h.alphabet_eq, List.map_filterMap, h.subsetTransition?_eq]
  target _ := rfl

theorem subsetSearch_eq (h : nfa.Renames nfa' g) :
    nfa'.subsetSearch = nfa.subsetSearch.map (.map (.image g) (.rename g)) := by
  have hsearch := h.subsetSpace.search_eq [nfa.table.startSet]
  rwa [List.map_singleton, ← h.startSet_eq] at hsearch

theorem states_eq (h : nfa.Renames nfa' g) :
    nfa'.determinize.states = nfa.determinize.states.map (.image g) := by
  have hdiscovered := h.subsetSpace.discovered_eq [nfa.table.startSet] nfa.subsetSearch
  rwa [List.map_singleton, ← h.startSet_eq, ← h.subsetSearch_eq] at hdiscovered

theorem accepting_eq (h : nfa.Renames nfa' g) :
    nfa'.determinize.accepting = nfa.determinize.accepting.map (.image g) := by
  rw [accepting_determinize, accepting_determinize, h.states_eq, List.filter_map]
  simp only [Function.comp_def, h.accept, StateSet.mem_image_of_injective h.injective]

theorem transitions_eq (h : nfa.Renames nfa' g) :
    nfa'.determinize.transitions = nfa.determinize.transitions.map (.rename g) := by
  have hmoves : nfa'.determinize.transitions = nfa'.subsetSearch.flatMap Visit.moves := rfl
  rw [hmoves, h.subsetSearch_eq, List.flatMap_map]
  exact List.map_flatMap.symm

theorem determinize_eq (h : nfa.Renames nfa' g) : nfa'.determinize = nfa.determinize.rename g := by
  rw [Dfa.rename, ← h.states_eq, ← h.accepting_eq, ← h.transitions_eq]
  exact congrArg (Dfa.mk · _ _ _) h.startSet_eq

end Renames

/-- Determinization depends on the transitions as a set, and not on the names of the states. Under other
names it discovers the same states in the same order, the same of them accept, and the same transitions are
recorded in the same order. -/
theorem determinize_renamed (start accept : State) {ts ts' : List Transition} {g : State → State}
    (hg : Function.Injective g) (hts : ∀ t, t ∈ ts' ↔ t ∈ ts.map (.rename g)) :
    (determinize ⟨g start, g accept, ts'⟩).states =
        (determinize ⟨start, accept, ts⟩).states.map (.image g) ∧
      (determinize ⟨g start, g accept, ts'⟩).acceptingIndices =
        (determinize ⟨start, accept, ts⟩).acceptingIndices ∧
      (determinize ⟨g start, g accept, ts'⟩).indexedTransitions =
        (determinize ⟨start, accept, ts⟩).indexedTransitions := by
  have h : Renames ⟨start, accept, ts⟩ ⟨g start, g accept, ts'⟩ g := ⟨hg, rfl, rfl, hts⟩
  rw [h.determinize_eq]
  exact ⟨rfl, Dfa.acceptingIndices_rename hg _, Dfa.indexedTransitions_rename hg _⟩

/-- Any number of times `a`, and `b` after them. -/
def manyThenOne : List Transition := [⟨0, 1, .symbol 'a'⟩, ⟨1, 0, .epsilon⟩, ⟨1, 2, .symbol 'b'⟩]

/-- The same with states `0` and `2` exchanged, in another order, and with a repetition. -/
def manyThenOne' : List Transition :=
  [⟨1, 0, .symbol 'b'⟩, ⟨1, 2, .epsilon⟩, ⟨2, 1, .symbol 'a'⟩, ⟨1, 2, .epsilon⟩]

theorem determinize_renamed_swap :
    Function.Injective (Equiv.swap 0 2) ∧
      (∀ t, t ∈ manyThenOne' ↔ t ∈ manyThenOne.map (.rename (Equiv.swap 0 2))) ∧
      (determinize ⟨2, 0, manyThenOne'⟩).states =
        (determinize ⟨0, 2, manyThenOne⟩).states.map (.image (Equiv.swap 0 2)) ∧
      (determinize ⟨2, 0, manyThenOne'⟩).acceptingIndices =
        (determinize ⟨0, 2, manyThenOne⟩).acceptingIndices ∧
      (determinize ⟨2, 0, manyThenOne'⟩).indexedTransitions =
        (determinize ⟨0, 2, manyThenOne⟩).indexedTransitions := by
  have hg : Function.Injective (Equiv.swap 0 2) := (Equiv.swap 0 2).injective
  have hmap : manyThenOne.map (Transition.rename (Equiv.swap 0 2)) =
      [⟨2, 1, .symbol 'a'⟩, ⟨1, 2, .epsilon⟩, ⟨1, 0, .symbol 'b'⟩] := by decide
  have hts (t : Transition) : t ∈ manyThenOne' ↔ t ∈ manyThenOne.map (.rename (Equiv.swap 0 2)) := by
    simp only [hmap, manyThenOne', List.mem_cons, List.not_mem_nil, or_false]
    tauto
  exact ⟨hg, hts, determinize_renamed 0 2 hg hts⟩

end Nfa

end RegexCompiler
