import Mathlib.Logic.Relation
import RegexCompiler.Pda.Derive
import RegexCompiler.Pda.Search
import RegexCompiler.Proofs.Balance
import RegexCompiler.Proofs.Determinization

namespace RegexCompiler

open Relation

namespace Pda

variable {pda : Pda} {config next : Configuration} {w : List Char}

theorem takeFront?_none {α : Type} [DecidableEq α] {xs ys : List α} :
    takeFront? none xs = some ys ↔ ys = xs := by
  simp [takeFront?, eq_comm]

theorem takeFront?_some {α : Type} [DecidableEq α] {x : α} {xs ys : List α} :
    takeFront? (some x) xs = some ys ↔ xs = x :: ys := by
  cases xs with
  | nil => simp [takeFront?]
  | cons y xs => simp [takeFront?, eq_comm]

theorem Transition.next?_eq_some_iff {t : Transition} :
    t.next? config = some next ↔ ∃ input stack, takeFront? t.input config.input = some input ∧
      takeFront? t.pop config.stack = some stack ∧ next = ⟨t.target, input, t.push.toList ++ stack⟩ := by
  unfold next?
  constructor
  · intro h
    split at h
    · rename_i input stack hinput hstack
      cases h
      exact ⟨input, stack, hinput, hstack, rfl⟩
    · cases h
  · rintro ⟨input, stack, hinput, hstack, rfl⟩
    rw [hinput, hstack]

def Step (pda : Pda) (config next : Configuration) : Prop :=
  ∃ t ∈ pda.transitions, t.source = config.state ∧ t.next? config = some next

theorem mem_successors_iff {table : pda.Table} : next ∈ table.successors config ↔ pda.Step config next := by
  simp only [Table.successors, List.mem_filterMap, Index.lookup_eq, List.mem_filter, decide_eq_true_eq,
    Step, and_assoc]

/-- The search takes up exactly the configurations that can be reached. -/
theorem mem_visits_iff {table : pda.Table} {pending : List Configuration} :
    config ∈ table.visits pending ↔ ∃ start ∈ pending, ReflTransGen pda.Step start config := by
  induction pending using Table.visits.induct table with
  | case1 => simp [Table.visits]
  | case2 first rest ih =>
    rw [Table.visits, List.mem_cons, ih]
    constructor
    · rintro (rfl | ⟨start, hstart, hreach⟩)
      · exact ⟨_, List.mem_cons_self, .refl⟩
      · rcases List.mem_append.1 hstart with hstart | hstart
        · have hstep := mem_successors_iff.1 (List.mem_reverse.1 hstart)
          exact ⟨first, List.mem_cons_self, .head hstep hreach⟩
        · exact ⟨start, List.mem_cons_of_mem first hstart, hreach⟩
    · rintro ⟨start, hstart, hreach⟩
      rcases List.mem_cons.1 hstart with rfl | hstart
      · rcases hreach.cases_head with rfl | ⟨next, hstep, hreach⟩
        · exact .inl rfl
        · have hnext : next ∈ table.successors start := mem_successors_iff.2 hstep
          exact .inr ⟨next, List.mem_append_left rest (List.mem_reverse.2 hnext), hreach⟩
      · exact .inr ⟨start, List.mem_append_right _ hstart, hreach⟩

section Derived

variable {dfa : Dfa} {actions : ActionTable} {s : StateSet} {c : Char} {u v : List Char}
variable {stack : List StackSymbol}

theorem ofDfa_eq_ok (h : ofDfa dfa actions = .ok pda) :
    pda.start = .start ∧ pda.accepting = [.accept] ∧ pda.transitions = derivedTransitions dfa actions := by
  unfold ofDfa at h
  split at h
  · cases h
  · cases h
    exact ⟨rfl, rfl, rfl⟩

theorem exists_ofDfa_eq_ok (h : ∀ t ∈ dfa.transitions, actions.get? t.symbol ≠ none) :
    ∃ pda, ofDfa dfa actions = .ok pda := by
  unfold ofDfa
  split
  · rename_i t hfind
    have hnone := List.find?_some hfind
    exact absurd (Option.isNone_iff_eq_none.1 hnone) (h t (List.mem_of_find?_eq_some hfind))
  · exact ⟨_, rfl⟩

theorem mem_derivedTransitions_iff {t : Transition} :
    t ∈ derivedTransitions dfa actions ↔ t = .enter dfa.start ∨
      (∃ d ∈ dfa.transitions, ∃ action, actions.get? d.symbol = some action ∧ t = .ofDfa d action) ∨
        ∃ s ∈ dfa.accepting, t = .leave s := by
  simp only [derivedTransitions, List.cons_append, List.mem_cons, List.mem_append, List.mem_filterMap,
    List.mem_map, Option.map_eq_some_iff]
  constructor
  · rintro (rfl | ⟨d, hd, action, haction, rfl⟩ | ⟨s, hs, rfl⟩)
    · exact .inl rfl
    · exact .inr (.inl ⟨d, hd, action, haction, rfl⟩)
    · exact .inr (.inr ⟨s, hs, rfl⟩)
  · rintro (rfl | ⟨d, hd, action, haction, rfl⟩ | ⟨s, hs, rfl⟩)
    · exact .inl rfl
    · exact .inr (.inl ⟨d, hd, action, haction, rfl⟩)
    · exact .inr (.inr ⟨s, hs, rfl⟩)

theorem step_start_iff (h : ofDfa dfa actions = .ok pda) :
    pda.Step ⟨.start, w, stack⟩ next ↔ next = ⟨.inner dfa.start, w, .bottom :: stack⟩ := by
  obtain ⟨-, -, htransitions⟩ := ofDfa_eq_ok h
  simp only [Step, htransitions, mem_derivedTransitions_iff]
  constructor
  · rintro ⟨t, rfl | ⟨d, -, action, -, rfl⟩ | ⟨s, -, rfl⟩, hsource, hnext⟩
    · exact (Option.some.inj hnext).symm
    · cases action <;> cases hsource
    · cases hsource
  · rintro rfl
    exact ⟨_, .inl rfl, rfl, rfl⟩

theorem not_step_accept (h : ofDfa dfa actions = .ok pda) : ¬ pda.Step ⟨.accept, w, stack⟩ next := by
  obtain ⟨-, -, htransitions⟩ := ofDfa_eq_ok h
  simp only [Step, htransitions, mem_derivedTransitions_iff]
  rintro ⟨t, rfl | ⟨d, -, action, -, rfl⟩ | ⟨s, -, rfl⟩, hsource, hnext⟩
  · cases hsource
  · cases action <;> cases hsource
  · cases hsource

inductive Acts (target : StateSet) (v : List Char) :
    StackAction → List StackSymbol → Configuration → Prop
  | push (stack : List StackSymbol) : Acts target v .push stack ⟨.inner target, v, .marker :: stack⟩
  | pop (stack : List StackSymbol) : Acts target v .pop (.marker :: stack) ⟨.inner target, v, stack⟩
  | passThrough (stack : List StackSymbol) :
    Acts target v .passThrough (.bottom :: stack) ⟨.accept, v, .bottom :: stack⟩

theorem next?_ofDfa_iff {d : Dfa.Transition} {action : StackAction} :
    (Transition.ofDfa d action).next? ⟨.inner s, w, stack⟩ = some next ↔
      ∃ v, w = d.symbol :: v ∧ Acts d.target v action stack next := by
  rw [Transition.next?_eq_some_iff]
  cases action with
  | push =>
    simp only [Transition.ofDfa, takeFront?_some, takeFront?_none]
    constructor
    · rintro ⟨v, stack', hw, rfl, rfl⟩
      exact ⟨v, hw, .push _⟩
    · rintro ⟨v, hw, hacts⟩
      cases hacts
      exact ⟨v, stack, hw, rfl, rfl⟩
  | pop =>
    simp only [Transition.ofDfa, takeFront?_some]
    constructor
    · rintro ⟨v, stack', hw, rfl, rfl⟩
      exact ⟨v, hw, .pop _⟩
    · rintro ⟨v, hw, hacts⟩
      cases hacts
      exact ⟨v, _, hw, rfl, rfl⟩
  | passThrough =>
    simp only [Transition.ofDfa, takeFront?_some]
    constructor
    · rintro ⟨v, stack', hw, rfl, rfl⟩
      exact ⟨v, hw, .passThrough _⟩
    · rintro ⟨v, hw, hacts⟩
      cases hacts
      exact ⟨v, _, hw, rfl, rfl⟩

/-- What can happen in a state of the deterministic automaton: a transition of it, or the way out. -/
theorem step_inner_iff (h : ofDfa dfa actions = .ok pda) :
    pda.Step ⟨.inner s, w, stack⟩ next ↔
      (∃ c v s' action, w = c :: v ∧ ⟨s, c, s'⟩ ∈ dfa.transitions ∧ actions.get? c = some action ∧
        Acts s' v action stack next) ∨
      dfa.isAccepting s = true ∧ ∃ rest, stack = .bottom :: rest ∧ next = ⟨.accept, w, stack⟩ := by
  obtain ⟨-, -, htransitions⟩ := ofDfa_eq_ok h
  simp only [Step, htransitions, mem_derivedTransitions_iff]
  constructor
  · rintro ⟨t, rfl | ⟨⟨s', c, s''⟩, hd, action, haction, rfl⟩ | ⟨s', hs', rfl⟩, hsource, hnext⟩
    · cases hsource
    · obtain ⟨v, rfl, hacts⟩ := next?_ofDfa_iff.1 hnext
      obtain rfl : s' = s := by cases action <;> exact State.inner.inj hsource
      exact .inl ⟨c, v, s'', action, rfl, hd, haction, hacts⟩
    · obtain rfl : s' = s := State.inner.inj hsource
      obtain ⟨input, rest, hinput, hstack, rfl⟩ := Transition.next?_eq_some_iff.1 hnext
      obtain rfl := takeFront?_none.1 hinput
      obtain rfl := takeFront?_some.1 hstack
      exact .inr ⟨decide_eq_true hs', rest, rfl, rfl⟩
  · rintro (⟨c, v, s', action, rfl, hd, haction, hacts⟩ | ⟨haccepting, rest, rfl, rfl⟩)
    · refine ⟨_, .inr (.inl ⟨_, hd, action, haction, rfl⟩), ?_, next?_ofDfa_iff.2 ⟨v, rfl, hacts⟩⟩
      cases action <;> rfl
    · exact ⟨_, .inr (.inr ⟨s, of_decide_eq_true haccepting, rfl⟩), rfl, rfl⟩

/-- The configurations of a search. After some symbols the automaton is where the deterministic one is, with
the markers they have left above the bottom of the stack, or it has accepted. -/
inductive Reached (dfa : Dfa) (actions : ActionTable) (w : List Char) : Configuration → Prop
  | start : Reached dfa actions w ⟨.start, w, []⟩
  | inner {u v : List Char} {s : StateSet} {k : Nat} : w = u ++ v → dfa.run dfa.start u = some s →
    actions.markers 0 u = some k →
      Reached dfa actions w ⟨.inner s, v, List.replicate k .marker ++ [.bottom]⟩
  | leave {u v : List Char} {s : StateSet} : w = u ++ v → dfa.run dfa.start u = some s →
    actions.markers 0 u = some 0 → dfa.isAccepting s = true → Reached dfa actions w ⟨.accept, v, [.bottom]⟩
  | passThrough {u v : List Char} {c : Char} {s s' : StateSet} : w = u ++ c :: v →
    dfa.run dfa.start u = some s → dfa.next s c = some s' → actions.markers 0 u = some 0 →
      actions.get? c = some .passThrough → Reached dfa actions w ⟨.accept, v, [.bottom]⟩

theorem replicate_marker_eq_bottom {k : Nat} {rest : List StackSymbol}
    (h : List.replicate k .marker ++ [.bottom] = StackSymbol.bottom :: rest) : k = 0 ∧ rest = [] := by
  cases k with
  | zero => simpa using h
  | succ k => cases h

theorem replicate_marker_eq_marker {k : Nat} {rest : List StackSymbol}
    (h : List.replicate k .marker ++ [.bottom] = StackSymbol.marker :: rest) :
    ∃ m, k = m + 1 ∧ rest = List.replicate m .marker ++ [.bottom] := by
  cases k with
  | zero => cases h
  | succ k => exact ⟨k, rfl, (List.cons_eq_cons.1 h).2.symm⟩

variable {nfa : Nfa}

theorem Reached.step (h : ofDfa nfa.determinize actions = .ok pda)
    (hreached : Reached nfa.determinize actions w config) (hstep : pda.Step config next) :
    Reached nfa.determinize actions w next := by
  cases hreached with
  | start =>
    rw [(step_start_iff h).1 hstep]
    exact .inner (u := []) (k := 0) rfl rfl rfl
  | @inner u v s k hw hrun hmarkers =>
    rcases (step_inner_iff h).1 hstep with
      ⟨c, v, s', action, rfl, hd, haction, hacts⟩ | ⟨hs, rest, hrest, rfl⟩
    · have hnext := Nfa.next_determinize_eq_some_iff.2 hd
      have hw' : w = u ++ [c] ++ v := by rw [hw, List.append_assoc]; rfl
      have hrun' := Dfa.run_append_singleton_eq_some_iff.2 ⟨s, hrun, hnext⟩
      generalize hstack : List.replicate k StackSymbol.marker ++ [.bottom] = stack at hacts
      cases hacts with
      | push =>
        rw [← hstack]
        have hmarkers' := ActionTable.markers_append_singleton_iff.2 ⟨k, hmarkers, .inl ⟨haction, rfl⟩⟩
        exact .inner hw' hrun' hmarkers'
      | pop rest =>
        obtain ⟨m, rfl, rfl⟩ := replicate_marker_eq_marker hstack
        have hmarkers' := ActionTable.markers_append_singleton_iff.2 ⟨m + 1, hmarkers, .inr ⟨haction, rfl⟩⟩
        exact .inner hw' hrun' hmarkers'
      | passThrough rest =>
        obtain ⟨rfl, rfl⟩ := replicate_marker_eq_bottom hstack
        exact .passThrough hw hrun hnext hmarkers haction
    · obtain ⟨rfl, rfl⟩ := replicate_marker_eq_bottom hrest
      exact .leave hw hrun hmarkers hs
  | leave => exact absurd hstep (not_step_accept h)
  | passThrough => exact absurd hstep (not_step_accept h)

theorem reach_inner (h : ofDfa nfa.determinize actions = .ok pda) {k : Nat} (hw : w = u ++ v)
    (hrun : nfa.determinize.run nfa.determinize.start u = some s)
    (hmarkers : actions.markers 0 u = some k) :
    ReflTransGen pda.Step ⟨.start, w, []⟩ ⟨.inner s, v, List.replicate k .marker ++ [.bottom]⟩ := by
  induction u using List.reverseRecOn generalizing v s k with
  | nil =>
    cases hrun
    cases hmarkers
    cases hw
    exact .single ((step_start_iff h).2 rfl)
  | append_singleton u c ih =>
    obtain ⟨t, hrun, hnext⟩ := Dfa.run_append_singleton_eq_some_iff.1 hrun
    obtain ⟨m, hmarkers, hc⟩ := ActionTable.markers_append_singleton_iff.1 hmarkers
    have hreach := ih (v := c :: v) (by rw [hw, List.append_assoc]; rfl) hrun hmarkers
    have hd := Nfa.next_determinize_eq_some_iff.1 hnext
    rcases hc with ⟨haction, rfl⟩ | ⟨haction, rfl⟩
    · exact hreach.tail ((step_inner_iff h).2 (.inl ⟨c, v, s, _, rfl, hd, haction, .push _⟩))
    · exact hreach.tail ((step_inner_iff h).2 (.inl ⟨c, v, s, _, rfl, hd, haction, .pop _⟩))

theorem mem_visits_iff_reached (h : ofDfa nfa.determinize actions = .ok pda) :
    config ∈ pda.visits w ↔ Reached nfa.determinize actions w config := by
  rw [visits, (ofDfa_eq_ok h).1, mem_visits_iff]
  simp only [List.mem_singleton, exists_eq_left]
  constructor
  · intro hreach
    induction hreach with
    | refl => exact .start
    | tail _ hstep ih => exact ih.step h hstep
  · intro hreached
    cases hreached with
    | start => exact .refl
    | inner hw hrun hmarkers => exact reach_inner h hw hrun hmarkers
    | leave hw hrun hmarkers hs =>
      exact (reach_inner h hw hrun hmarkers).tail ((step_inner_iff h).2 (.inr ⟨hs, [], rfl, rfl⟩))
    | passThrough hw hrun hnext hmarkers haction =>
      have hd := Nfa.next_determinize_eq_some_iff.1 hnext
      exact (reach_inner h hw hrun hmarkers).tail
        ((step_inner_iff h).2 (.inl ⟨_, _, _, _, rfl, hd, haction, .passThrough []⟩))

/-- The derived automaton accepts what the deterministic one accepts, if its symbols are balanced, and
balanced symbols that the deterministic one can read with one more that passes through. -/
theorem accepts_derived_iff (nfa : Nfa) (actions : ActionTable) (pda : Pda)
    (h : ofDfa nfa.determinize actions = .ok pda) (w : List Char) :
    pda.accepts w = true ↔
      (nfa.determinize.accepts w = true ∧ actions.Balanced w) ∨
        ∃ u c s s', w = u ++ [c] ∧ actions.get? c = some .passThrough ∧ actions.Balanced u ∧
          nfa.determinize.run nfa.determinize.start u = some s ∧ nfa.determinize.next s c = some s' := by
  have haccepted (config : Configuration) :
      pda.accepted config = true ↔ config.state = .accept ∧ config.input = [] := by
    simp [accepted, isAccepting, (ofDfa_eq_ok h).2.1]
  simp only [accepts, List.any_eq_true, mem_visits_iff_reached h, haccepted, ← ActionTable.markers_zero_iff,
    Dfa.accepts_iff]
  constructor
  · rintro ⟨config, hreached, hstate, hinput⟩
    cases hreached with
    | start => cases hstate
    | inner => cases hstate
    | leave hw hrun hmarkers hs =>
      obtain rfl := hinput
      rw [List.append_nil] at hw
      subst hw
      exact .inl ⟨⟨_, hrun, hs⟩, hmarkers⟩
    | passThrough hw hrun hnext hmarkers haction =>
      obtain rfl := hinput
      exact .inr ⟨_, _, _, _, hw, haction, hmarkers, hrun, hnext⟩
  · rintro (⟨⟨s, hrun, hs⟩, hmarkers⟩ | ⟨u, c, s, s', hw, haction, hmarkers, hrun, hnext⟩)
    · exact ⟨_, .leave (List.append_nil w).symm hrun hmarkers hs, rfl, rfl⟩
    · exact ⟨_, .passThrough hw hrun hnext hmarkers haction, rfl, rfl⟩

def loopAb : Nfa := ⟨0, 0, [⟨0, 0, .symbol 'a'⟩, ⟨0, 0, .symbol 'b'⟩]⟩

theorem symbol_loopAb {t : Dfa.Transition} (ht : t ∈ loopAb.determinize.transitions) :
    t.symbol = 'a' ∨ t.symbol = 'b' := by
  simpa [Nfa.alphabet, loopAb, Label.symbol?] using Nfa.symbol_mem_alphabet ht

theorem exists_derived_loopAb : ∃ pda, ofDfa loopAb.determinize .balancedAb = .ok pda := by
  apply exists_ofDfa_eq_ok
  intro t ht
  rcases symbol_loopAb ht with hsymbol | hsymbol <;> rw [hsymbol] <;> decide

theorem accepts_derived_loopAb :
    ∃ pda, ofDfa loopAb.determinize .balancedAb = .ok pda ∧ pda.accepts ['a', 'a', 'b', 'b'] = true ∧
      pda.accepts ['b', 'a'] = false := by
  obtain ⟨pda, hpda⟩ := exists_derived_loopAb
  have ha : ⟨0, 0, .symbol 'a'⟩ ∈ loopAb.transitions := by decide
  have hb : ⟨0, 0, .symbol 'b'⟩ ∈ loopAb.transitions := by decide
  have hpath : loopAb.Path 0 ['a', 'a', 'b', 'b'] 0 :=
    .symbol ha (.symbol ha (.symbol hb (.symbol hb (.refl 0))))
  refine ⟨pda, hpda, (accepts_derived_iff _ _ _ hpda _).2 (.inl ⟨?_, ?_⟩), ?_⟩
  · rw [Nfa.accepts_determinize]
    exact Nfa.accepts_iff.2 hpath
  · exact ActionTable.markers_zero_iff.1 (by decide)
  · rw [← Bool.not_eq_true, accepts_derived_iff _ _ _ hpda]
    rintro (⟨-, hbalanced⟩ | ⟨u, c, s, s', hw, hc, -⟩)
    · exact absurd (ActionTable.markers_zero_iff.2 hbalanced) (by decide)
    · obtain ⟨-, hlast⟩ := List.append_inj' (show ['b'] ++ ['a'] = u ++ [c] from hw) rfl
      obtain rfl := List.singleton_inj.1 hlast
      exact absurd hc (by decide)

end Derived

end Pda

end RegexCompiler
