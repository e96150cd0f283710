import Mathlib.Order.Interval.Finset.Nat
import RegexCompiler.Proofs.Allocation
import RegexCompiler.Proofs.StateCount

namespace RegexCompiler

open Token

def Token.transitionsMade (ts : List Token) : Nat :=
  ts.countP isLiteral + ts.count (.operator .concat) +
    4 * (ts.count (.operator .alternation) + ts.count (.operator .star))

theorem Token.transitionsMade_append (ts us : List Token) :
    transitionsMade (ts ++ us) = transitionsMade ts + transitionsMade us := by
  simp only [transitionsMade, List.countP_append, List.count_append]
  omega

namespace Nfa

def leaving (nfa : Nfa) (q : State) : List Transition := nfa.transitions.filter fun t ↦ t.source = q

/-- What may leave a state: a single transition that reads a symbol, or up to two that read nothing. -/
def Branching (ts : List Transition) : Prop :=
  (∃ t c, ts = [t] ∧ t.label = .symbol c) ∨ ts.length ≤ 2 ∧ ts.Nodup ∧ ∀ t ∈ ts, t.label = .epsilon

/-- An automaton that other ones can be joined to at its ends: no transition of its own comes back to its start
or goes on from its accepting state. -/
structure Shaped (nfa : Nfa) : Prop where
  start_ne_accept : nfa.start ≠ nfa.accept
  target_ne_start : ∀ t ∈ nfa.transitions, t.target ≠ nfa.start
  source_ne_accept : ∀ t ∈ nfa.transitions, t.source ≠ nfa.accept
  branching : ∀ q, Branching (nfa.leaving q)

variable {nfa inner first second : Nfa} {lo mid hi : Nat} {p q r : State}
variable {ts us : List Transition}

namespace Branching

theorem nil : Branching [] := .inr ⟨by decide, .nil, by simp⟩

theorem symbol (p q : State) (c : Char) : Branching [⟨p, q, .symbol c⟩] := .inl ⟨_, c, rfl, rfl⟩

theorem epsilon (p q : State) : Branching [.epsilon p q] := by
  refine .inr ⟨Nat.le_succ 1, List.nodup_singleton _, fun t ht ↦ ?_⟩
  rw [List.mem_singleton.1 ht]
  rfl

theorem epsilon_pair (p : State) (hne : q ≠ r) : Branching [.epsilon p q, .epsilon p r] := by
  refine .inr ⟨Nat.le_refl 2, ?_, fun t ht ↦ ?_⟩
  · have hdiff : Transition.epsilon p q ≠ .epsilon p r := fun h ↦ hne (congrArg Transition.target h)
    exact List.nodup_cons.2 ⟨mt List.mem_singleton.1 hdiff, List.nodup_singleton _⟩
  · rcases List.mem_pair.1 ht with heq | heq
    · rw [heq]
      rfl
    · rw [heq]
      rfl

theorem nodup (h : Branching ts) : ts.Nodup := by
  rcases h with ⟨t, c, rfl, -⟩ | ⟨-, h, -⟩
  · exact List.nodup_singleton t
  · exact h

theorem perm (h : Branching ts) (hperm : ts.Perm us) : Branching us := by
  rcases h with ⟨t, c, rfl, ht⟩ | ⟨hlength, hnodup, hlabel⟩
  · exact .inl ⟨t, c, (List.singleton_perm.1 hperm).symm, ht⟩
  · refine .inr ⟨?_, hperm.nodup_iff.1 hnodup, fun t ht ↦ hlabel t (hperm.mem_iff.2 ht)⟩
    rwa [← hperm.length_eq]

end Branching

theorem leaving_eq_nil (h : ∀ t ∈ nfa.transitions, t.source ≠ q) : nfa.leaving q = [] :=
  List.filter_eq_nil_iff.2 fun t ht ↦ by simp [h t ht]

theorem Within.leaving_eq_nil (h : nfa.Within lo hi) (hq : ¬ State.Between lo hi q) : nfa.leaving q = [] := by
  apply Nfa.leaving_eq_nil
  intro t ht hsource
  apply hq
  rw [← hsource]
  exact (h.transitions t ht).1

theorem leaving_concat (first second : Nfa) (q : State) :
    (first.concat second).leaving q = first.leaving q ++
      (if first.accept = q then [.epsilon first.accept second.start] else []) ++ second.leaving q := by
  by_cases h : first.accept = q <;> simp [leaving, concat, Transition.epsilon, h]

theorem leaving_alternation (start accept : State) (first second : Nfa) (q : State) :
    (alternation start accept first second).leaving q =
      (if start = q then [.epsilon start first.start, .epsilon start second.start] else []) ++
        ((if first.accept = q then [.epsilon first.accept accept] else []) ++
          ((if second.accept = q then [.epsilon second.accept accept] else []) ++
            (first.leaving q ++ second.leaving q))) := by
  simp only [leaving, alternation, Transition.epsilon, List.filter_cons, List.filter_append, decide_eq_true_eq]
  split <;> split <;> split <;> rfl

theorem leaving_star (start accept : State) (inner : Nfa) (q : State) :
    (star start accept inner).leaving q =
      (if start = q then [.epsilon start inner.start, .epsilon start accept] else []) ++
        ((if inner.accept = q then [.epsilon inner.accept inner.start, .epsilon inner.accept accept] else []) ++
          inner.leaving q) := by
  simp only [leaving, star, Transition.epsilon, List.filter_cons, decide_eq_true_eq]
  split <;> split <;> rfl

namespace Shaped

/-- No transition occurs twice, since none does among those that leave its source. -/
theorem nodup (h : nfa.Shaped) : nfa.transitions.Nodup := by
  rw [List.nodup_iff_count_le_one]
  intro t
  have hcount : (nfa.leaving t.source).count t = nfa.transitions.count t := List.count_filter (by simp)
  rw [← hcount]
  exact List.nodup_iff_count_le_one.1 (h.branching t.source).nodup t

/-- The accepting state is free to be left by the transitions that join an automaton to others. -/
theorem branching_exits (h : nfa.Shaped) {exits : List Transition} (hexits : Branching exits) (q : State) :
    Branching ((if nfa.accept = q then exits else []) ++ nfa.leaving q) := by
  by_cases hq : nfa.accept = q
  · have hnone : nfa.leaving q = [] := by
      rw [← hq]
      exact leaving_eq_nil h.source_ne_accept
    rwa [if_pos hq, hnone, List.append_nil]
  · rw [if_neg hq, List.nil_append]
    exact h.branching q

theorem ofLiteral (hne : p ≠ q) (c : Char) : (ofLiteral p q c).Shaped where
  start_ne_accept := hne
  target_ne_start t ht := by
    rw [mem_ofLiteral.1 ht]
    exact hne.symm
  source_ne_accept t ht := by
    rw [mem_ofLiteral.1 ht]
    exact hne
  branching r := by
    by_cases hr : p = r
    · have hleaving : (Nfa.ofLiteral p q c).leaving r = [⟨p, q, .symbol c⟩] := by
        simp [leaving, Nfa.ofLiteral, hr]
      rw [hleaving]
      exact .symbol p q c
    · have hleaving : (Nfa.ofLiteral p q c).leaving r = [] := by simp [leaving, Nfa.ofLiteral, hr]
      rw [hleaving]
      exact .nil

theorem concat (hf : first.Within lo mid) (hs : second.Within mid hi) (hfirst : first.Shaped)
    (hsecond : second.Shaped) : (first.concat second).Shaped where
  start_ne_accept := hf.start.ne hs.accept
  target_ne_start t ht := by
    rcases mem_concat.1 ht with ht | rfl | ht
    · exact hfirst.target_ne_start t ht
    · exact (hf.start.ne hs.start).symm
    · exact (hf.start.ne (hs.transitions t ht).2).symm
  source_ne_accept t ht := by
    rcases mem_concat.1 ht with ht | rfl | ht
    · exact (hf.transitions t ht).1.ne hs.accept
    · exact hf.accept.ne hs.accept
    · exact hsecond.source_ne_accept t ht
  branching q := by
    rw [leaving_concat]
    by_cases hq : State.Between lo mid q
    · rw [hs.leaving_eq_nil fun hq' ↦ hq.disjoint hq', List.append_nil]
      exact (hfirst.branching_exits (.epsilon _ _) q).perm List.perm_append_comm
    · rw [hf.leaving_eq_nil hq, if_neg (hf.accept.ne_of_not hq), List.append_nil, List.nil_append]
      exact hsecond.branching q

theorem alternation (hf : first.Within lo mid) (hs : second.Within mid hi) (hfirst : first.Shaped)
    (hsecond : second.Shaped) : (alternation hi (hi + 1) first second).Shaped where
  start_ne_accept := Nat.ne_of_lt (Nat.lt_succ_self hi)
  target_ne_start t ht := by
    have hmid : mid ≤ hi := Nat.le_of_lt hs.lt
    rcases mem_alternation.1 ht with rfl | rfl | rfl | rfl | ht | ht
    · exact hf.start.ne_of_le hmid
    · exact hs.start.ne_of_le (Nat.le_refl hi)
    · exact Nat.succ_ne_self hi
    · exact Nat.succ_ne_self hi
    · exact (hf.transitions t ht).2.ne_of_le hmid
    · exact (hs.transitions t ht).2.ne_of_le (Nat.le_refl hi)
  source_ne_accept t ht := source_ne_accept_alternation hf hs ht
  branching q := by
    have hmid : mid ≤ hi := Nat.le_of_lt hs.lt
    rw [leaving_alternation]
    by_cases hq : State.Between lo mid q
    · have hstart : hi ≠ q := (hq.ne_of_le hmid).symm
      rw [if_neg hstart, if_neg (hq.ne hs.accept).symm, hs.leaving_eq_nil fun hq' ↦ hq.disjoint hq']
      simpa using hfirst.branching_exits (.epsilon first.accept (hi + 1)) q
    by_cases hq' : State.Between mid hi q
    · have hstart : hi ≠ q := (hq'.ne_of_le (Nat.le_refl hi)).symm
      rw [if_neg hstart, if_neg (hf.accept.ne_of_not hq), hf.leaving_eq_nil hq]
      simpa using hsecond.branching_exits (.epsilon second.accept (hi + 1)) q
    · rw [if_neg (hf.accept.ne_of_not hq), if_neg (hs.accept.ne_of_not hq'), hf.leaving_eq_nil hq,
        hs.leaving_eq_nil hq']
      have hpair : Branching [.epsilon hi first.start, .epsilon hi second.start] :=
        .epsilon_pair hi (hf.start.ne hs.start)
      by_cases hstart : hi = q
      · simpa [if_pos hstart] using hpair
      · simpa [if_neg hstart] using Branching.nil

theorem star (hwithin : inner.Within lo hi) (hinner : inner.Shaped) : (star hi (hi + 1) inner).Shaped where
  start_ne_accept := Nat.ne_of_lt (Nat.lt_succ_self hi)
  target_ne_start t ht := by
    rcases mem_star.1 ht with rfl | rfl | rfl | rfl | ht
    · exact hwithin.start.ne_of_le (Nat.le_refl hi)
    · exact Nat.succ_ne_self hi
    · exact hwithin.start.ne_of_le (Nat.le_refl hi)
    · exact Nat.succ_ne_self hi
    · exact (hwithin.transitions t ht).2.ne_of_le (Nat.le_refl hi)
  source_ne_accept t ht := source_ne_accept_star ht hwithin
  branching q := by
    have hpair (p : State) : Branching [.epsilon p inner.start, .epsilon p (hi + 1)] :=
      .epsilon_pair p (hwithin.start.ne_of_le (Nat.le_succ hi))
    rw [leaving_star]
    by_cases hq : State.Between lo hi q
    · rw [if_neg (hq.ne_of_le (Nat.le_refl hi)).symm, List.nil_append]
      exact hinner.branching_exits (hpair inner.accept) q
    · rw [if_neg (hwithin.accept.ne_of_not hq), hwithin.leaving_eq_nil hq]
      by_cases hstart : hi = q
      · simpa [if_pos hstart] using hpair hi
      · simpa [if_neg hstart] using Branching.nil

end Shaped

end Nfa

namespace Expr

theorem shaped_thompson (e : Expr) (n : Nat) : (e.thompson n).Shaped := by
  induction e generalizing n with
  | literal c => exact .ofLiteral (Nat.ne_of_lt (Nat.lt_succ_self n)) c
  | concat left right ihl ihr => exact .concat (left.within_thompson n) (right.within_thompson _) (ihl n) (ihr _)
  | alternation left right ihl ihr =>
    exact .alternation (left.within_thompson n) (right.within_thompson _) (ihl n) (ihr _)
  | star inner ih => exact .star (inner.within_thompson n) (ih n)

theorem length_transitions_thompson (e : Expr) (n : Nat) :
    (e.thompson n).transitions.length = transitionsMade e.rpn := by
  have hconcat : transitionsMade [.operator .concat] = 1 := rfl
  have halternation : transitionsMade [.operator .alternation] = 4 := rfl
  have hstar : transitionsMade [.operator .star] = 4 := rfl
  induction e generalizing n with
  | literal c => rfl
  | concat left right ihl ihr =>
    rw [rpn, transitionsMade_append, transitionsMade_append, hconcat, ← ihl n, ← ihr (n + left.stateCount)]
    simp only [thompson, Nfa.concat, List.length_append, List.length_cons]
    omega
  | alternation left right ihl ihr =>
    rw [rpn, transitionsMade_append, transitionsMade_append, halternation, ← ihl n,
      ← ihr (n + left.stateCount)]
    simp only [thompson, Nfa.alternation, List.length_append, List.length_cons]
  | star inner ih =>
    rw [rpn, transitionsMade_append, hstar, ← ih n]
    simp only [thompson, Nfa.star, List.length_cons]

/-- All states that are handed out for an expression are in its automaton. -/
theorem size_states_thompson (e : Expr) (n : Nat) : (e.thompson n).states.size = e.stateCount := by
  have hcard : (Finset.Ico n (n + e.stateCount)).card = e.stateCount := by simp
  rw [← hcard]
  apply OrderedSet.size_eq_card
  intro q
  rw [e.mem_states_thompson_iff, Finset.mem_Ico]
  rfl

end Expr

namespace Nfa

/-- The size of an automaton depends only on how often each kind of token occurs, its states on how it is put
together: it starts and ends at different states, is not entered at the one nor left from the other, branches
only without reading, and has no state that is not on a way from the start to the accepting state. -/
theorem ofRpn_shape (allocator : Allocator) (rpn : List Token) (nfa : Nfa)
    (h : (ofRpn allocator rpn).1 = .ok nfa) :
    nfa.states.size = statesTaken rpn ∧ nfa.transitions.length = transitionsMade rpn ∧
      nfa.transitions.Nodup ∧ nfa.Shaped ∧ nfa.Trim := by
  obtain ⟨e, rfl, rfl⟩ := ofRpn_eq_ok_iff.1 h
  have hshaped := e.shaped_thompson allocator.next
  refine ⟨?_, e.length_transitions_thompson _, hshaped.nodup, hshaped, e.trim_thompson _⟩
  rw [e.size_states_thompson, e.stateCount_eq]

theorem ofRpn_shape_star :
    ∃ nfa, (ofRpn ⟨5⟩ [.literal 'a', .literal 'b', .operator .alternation, .operator .star]).1 = .ok nfa ∧
      nfa.states.size = 8 ∧ nfa.transitions.length = 10 ∧ nfa.Shaped ∧ nfa.Trim := by
  have hbuilt : (ofRpn ⟨5⟩ [.literal 'a', .literal 'b', .operator .alternation, .operator .star]).1 =
      .ok ((Expr.star (.alternation (.literal 'a') (.literal 'b'))).thompson 5) := rfl
  obtain ⟨hstates, htransitions, -, hshaped, htrim⟩ := ofRpn_shape _ _ _ hbuilt
  exact ⟨_, hbuilt, hstates, htransitions, hshaped, htrim⟩

end Nfa

end RegexCompiler
