import RegexCompiler.Proofs.Determinization

namespace RegexCompiler

namespace Dfa

def leaving (dfa : Dfa) (s : StateSet) : List Transition := dfa.transitions.filter fun t ↦ t.source = s

/-- The tables of a deterministic automaton hold the part of the subset automaton that can be reached: each
set of states that a word leads to once, with a transition for each symbol that leads on from there. The
transitions of a state stand together, those of the start come first. -/
structure Tabulates (dfa : Dfa) (nfa : Nfa) : Prop where
  start_eq : dfa.start = nfa.closure (.ofList [nfa.start])
  head_states : dfa.states.head? = some dfa.start
  nodup_states : dfa.states.Nodup
  isEmpty_eq_false : ∀ s ∈ dfa.states, s.isEmpty = false
  closure_eq : ∀ s ∈ dfa.states, nfa.closure s = s
  mem_states_iff : ∀ s, s ∈ dfa.states ↔ s.isEmpty = false ∧ ∃ w, ∀ q, q ∈ s ↔ nfa.Path nfa.start w q
  isAccepting_iff : ∀ s, dfa.isAccepting s = true ↔ s ∈ dfa.states ∧ nfa.accept ∈ s
  next_eq : ∀ s ∈ dfa.states, ∀ c, dfa.next s c =
    if (nfa.closure (nfa.move s c)).isEmpty then none else some (nfa.closure (nfa.move s c))
  next_mem_states : ∀ s c s', dfa.next s c = some s' → s' ∈ dfa.states
  next_eq_some_iff : ∀ s c s', dfa.next s c = some s' ↔ ⟨s, c, s'⟩ ∈ dfa.transitions
  nodup_transitions : (dfa.transitions.map fun t ↦ (t.source, t.symbol)).Nodup
  ascending : ∀ s, (dfa.leaving s).Pairwise fun t t' ↦ t.symbol < t'.symbol
  blocks : ∃ order : List StateSet, order.Perm dfa.states ∧ order.head? = some dfa.start ∧
    dfa.transitions = order.flatMap dfa.leaving

end Dfa

namespace Nfa

variable {nfa : Nfa} {states : StateSet}

theorem closure_eq_of_closed (h : nfa.Closed states) : nfa.closure states = states := by
  ext q
  rw [closure, Table.mem_closure_iff]
  constructor
  · intro hq
    obtain ⟨p, hp, hpq⟩ := hq
    exact h p hp q hpq
  · intro hq
    exact ⟨q, hq, .refl q⟩

theorem after_eq_iff {w : List Char} :
    nfa.after w = states ↔ ∀ q, q ∈ states ↔ nfa.Path nfa.start w q := by
  constructor
  · rintro rfl q
    exact mem_after_iff
  · intro h
    ext q
    rw [mem_after_iff, h]

/-- Every state is expanded once, and all its transitions are recorded then. -/
theorem determinize_transitions_eq :
    nfa.determinize.transitions =
      (nfa.subsetSearch.map Visit.node).flatMap nfa.table.subsetSpace.moves := by
  rw [List.flatMap_map]
  exact List.flatMap_congr fun visit hvisit ↦ Space.moves_of_mem_visits hvisit

theorem perm_subsetSearch : (nfa.subsetSearch.map Visit.node).Perm nfa.determinize.states :=
  nfa.table.subsetSpace.nodes_search [nfa.table.startSet]

theorem nodup_subsetSearch (nfa : Nfa) : (nfa.subsetSearch.map Visit.node).Nodup :=
  perm_subsetSearch.nodup_iff.2 nodup_determinize

theorem pairwise_subsetMoves (states : StateSet) :
    (nfa.table.subsetSpace.moves states).Pairwise fun t t' ↦ t.symbol < t'.symbol := by
  apply List.Pairwise.filterMap _ _ nfa.alphabet.ascending
  intro c c' hlt t ht t' ht'
  obtain ⟨-, rfl⟩ := subsetTransition?_eq_some_iff.1 ht
  obtain ⟨-, rfl⟩ := subsetTransition?_eq_some_iff.1 ht'
  exact hlt

theorem pairwise_determinize_transitions (nfa : Nfa) :
    nfa.determinize.transitions.Pairwise fun t t' ↦ t.source = t'.source → t.symbol < t'.symbol := by
  rw [determinize_transitions_eq, List.pairwise_flatMap]
  refine ⟨fun s _ ↦ ?_, ?_⟩
  · refine (pairwise_subsetMoves s).imp ?_
    intro t t' hlt _
    exact hlt
  · refine (nodup_subsetSearch nfa).imp fun hne t ht t' ht' hsource ↦ ?_
    obtain ⟨rfl, -⟩ := mem_subsetMoves_iff.1 ht
    obtain ⟨rfl, -⟩ := mem_subsetMoves_iff.1 ht'
    exact absurd hsource hne

theorem nodup_determinize_transitions :
    (nfa.determinize.transitions.map fun t ↦ (t.source, t.symbol)).Nodup := by
  refine List.pairwise_map.2 ((pairwise_determinize_transitions nfa).imp fun h heq ↦ ?_)
  obtain ⟨hsource, hsymbol⟩ := Prod.mk.inj heq
  have hlt := h hsource
  rw [hsymbol] at hlt
  exact Std.lt_irrefl hlt

theorem pairwise_leaving (s : StateSet) :
    (nfa.determinize.leaving s).Pairwise fun t t' ↦ t.symbol < t'.symbol := by
  have hfilter := (pairwise_determinize_transitions nfa).filter fun t ↦ decide (t.source = s)
  refine hfilter.imp_of_mem fun ht ht' h ↦ h ?_
  have hsource := of_decide_eq_true (List.mem_filter.1 ht).2
  have hsource' := of_decide_eq_true (List.mem_filter.1 ht').2
  exact hsource.trans hsource'.symm

theorem filter_subsetMoves (s s' : StateSet) :
    (nfa.table.subsetSpace.moves s').filter (fun t ↦ t.source = s) =
      if s' = s then nfa.table.subsetSpace.moves s' else [] := by
  have hsource : ∀ t ∈ nfa.table.subsetSpace.moves s', t.source = s' := fun t ht ↦
    (mem_subsetMoves_iff.1 ht).1
  split
  · rename_i heq
    refine List.filter_eq_self.2 fun t ht ↦ ?_
    rw [hsource t ht, heq]
    exact decide_eq_true rfl
  · rename_i hne
    refine List.filter_eq_nil_iff.2 fun t ht ↦ ?_
    rw [hsource t ht, decide_eq_true_eq]
    exact hne

theorem leaving_determinize (h : states ∈ nfa.determinize.states) :
    nfa.determinize.leaving states = nfa.table.subsetSpace.moves states := by
  -- The set is taken up in one place of the search: what is recorded before and after has another source.
  obtain ⟨before, after, horder⟩ := List.append_of_mem (perm_subsetSearch.mem_iff.2 h)
  have hnodup := nodup_subsetSearch nfa
  rw [horder, List.nodup_middle, List.nodup_cons, List.mem_append, not_or] at hnodup
  obtain ⟨⟨hbefore, hafter⟩, -⟩ := hnodup
  have hnone : ∀ order : List StateSet, states ∉ order → (order.flatMap fun s ↦
      (nfa.table.subsetSpace.moves s).filter fun t ↦ t.source = states) = [] := by
    intro order horder
    refine List.flatMap_eq_nil_iff.2 fun s hs ↦ ?_
    rw [filter_subsetMoves, if_neg]
    rintro rfl
    exact horder hs
  rw [Dfa.leaving, determinize_transitions_eq, horder, List.filter_flatMap, List.flatMap_append,
    List.flatMap_cons, hnone before hbefore, hnone after hafter, filter_subsetMoves, if_pos rfl,
    List.nil_append, List.append_nil]

theorem tabulates_determinize (nfa : Nfa) : nfa.determinize.Tabulates nfa where
  start_eq := rfl
  head_states := rfl
  nodup_states := nodup_determinize
  isEmpty_eq_false s hs := (mem_determinize_iff.1 hs).1
  closure_eq s hs := by
    obtain ⟨-, w, rfl⟩ := mem_determinize_iff.1 hs
    exact closure_eq_of_closed (closed_after w)
  mem_states_iff s := by
    rw [mem_determinize_iff]
    simp only [after_eq_iff]
  isAccepting_iff s := isAccepting_determinize_iff
  next_eq s hs c := next_determinize hs c
  next_mem_states s c s' h := by
    obtain ⟨hs, hs', hempty⟩ := mem_determinize_transitions_iff.1 (next_determinize_eq_some_iff.1 h)
    dsimp only at hs hs' hempty
    rw [hs'] at hempty ⊢
    exact next_mem_determinize hs hempty
  next_eq_some_iff s c s' := next_determinize_eq_some_iff
  nodup_transitions := nodup_determinize_transitions
  ascending := pairwise_leaving
  blocks := by
    have hhead := nfa.table.subsetSpace.head?_search [nfa.table.startSet]
    have hleaving : ∀ s ∈ nfa.subsetSearch.map Visit.node,
        nfa.table.subsetSpace.moves s = nfa.determinize.leaving s := fun s hs ↦
      (leaving_determinize (perm_subsetSearch.mem_iff.1 hs)).symm
    have htransitions := determinize_transitions_eq.trans (List.flatMap_congr hleaving)
    exact ⟨nfa.subsetSearch.map Visit.node, perm_subsetSearch, hhead, htransitions⟩

end Nfa

end RegexCompiler
