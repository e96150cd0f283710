import RegexCompiler.Proofs.Renaming
import RegexCompiler.Proofs.Trim

namespace RegexCompiler

namespace Nfa

variable {nfa inner outer first second : Nfa} {start accept q : State} {t : Transition}

theorem accept_mem_states : nfa.accept ∈ nfa.states := mem_states_iff.2 (.inr (.inl rfl))

theorem source_mem_states (h : t ∈ nfa.transitions) : t.source ∈ nfa.states :=
  mem_states_iff.2 (.inr (.inr ⟨t, h, .inl rfl⟩))

theorem mem_states_of_part (hsub : ∀ t ∈ inner.transitions, t ∈ outer.transitions)
    (hstart : inner.start ∈ outer.states) (haccept : inner.accept ∈ outer.states) (h : q ∈ inner.states) :
    q ∈ outer.states := by
  rcases mem_states_iff.1 h with heq | heq | ⟨t, ht, heq | heq⟩
  · rwa [heq]
  · rwa [heq]
  · rw [heq]
    exact source_mem_states (hsub t ht)
  · rw [heq]
    exact target_mem_states (hsub t ht)

theorem mem_states_concat (h : q ∈ first.states ∨ q ∈ second.states) : q ∈ (first.concat second).states := by
  have hjoin := mem_concat.2 (.inr (.inl rfl) : Transition.epsilon first.accept second.start ∈ _ ∨ _)
  rcases h with h | h
  · apply mem_states_of_part (fun t ht ↦ mem_concat.2 (.inl ht)) _ _ h
    · exact start_mem_states
    · exact source_mem_states hjoin
  · apply mem_states_of_part (fun t ht ↦ mem_concat.2 (.inr (.inr ht))) _ _ h
    · exact target_mem_states hjoin
    · exact accept_mem_states

theorem mem_states_alternation (h : q ∈ first.states ∨ q ∈ second.states) :
    q ∈ (alternation start accept first second).states := by
  rcases h with h | h
  · apply mem_states_of_part (fun t ht ↦ mem_alternation.2 (by simp [ht])) _ _ h
    · exact target_mem_states (mem_alternation.2 (.inl rfl))
    · exact source_mem_states (mem_alternation.2 (.inr (.inr (.inl rfl))))
  · apply mem_states_of_part (fun t ht ↦ mem_alternation.2 (by simp [ht])) _ _ h
    · exact target_mem_states (mem_alternation.2 (.inr (.inl rfl)))
    · exact source_mem_states (mem_alternation.2 (.inr (.inr (.inr (.inl rfl)))))

theorem mem_states_star (h : q ∈ inner.states) : q ∈ (star start accept inner).states := by
  apply mem_states_of_part (fun t ht ↦ mem_star.2 (by simp [ht])) _ _ h
  · exact target_mem_states (mem_star.2 (.inl rfl))
  · exact source_mem_states (mem_star.2 (.inr (.inr (.inl rfl))))

theorem Within.between {lo hi : Nat} (h : nfa.Within lo hi) (hq : q ∈ nfa.states) :
    State.Between lo hi q := by
  rcases mem_states_iff.1 hq with heq | heq | ⟨t, ht, heq | heq⟩
  · rw [heq]
    exact h.start
  · rw [heq]
    exact h.accept
  · rw [heq]
    exact (h.transitions t ht).1
  · rw [heq]
    exact (h.transitions t ht).2

end Nfa

/-- Every state taken for an expression ends up in its automaton. -/
theorem Expr.mem_states_thompson (e : Expr) (n : Nat) {q : Nat}
    (h : State.Between n (n + e.stateCount) q) : q ∈ (e.thompson n).states := by
  induction e generalizing n with
  | literal c =>
    simp only [State.Between, stateCount] at h
    have hends : q = n ∨ q = n + 1 := by omega
    exact Nfa.mem_states_iff.2 (hends.imp_right .inl)
  | concat left right ihl ihr =>
    simp only [State.Between, stateCount] at h
    apply Nfa.mem_states_concat
    by_cases hleft : q < n + left.stateCount
    · exact .inl (ihl n ⟨h.1, hleft⟩)
    · have hright : q < n + left.stateCount + right.stateCount := by omega
      exact .inr (ihr _ ⟨Nat.le_of_not_lt hleft, hright⟩)
  | alternation left right ihl ihr =>
    simp only [State.Between, stateCount] at h
    by_cases hleft : q < n + left.stateCount
    · exact Nfa.mem_states_alternation (.inl (ihl n ⟨h.1, hleft⟩))
    by_cases hright : q < n + left.stateCount + right.stateCount
    · exact Nfa.mem_states_alternation (.inr (ihr _ ⟨Nat.le_of_not_lt hleft, hright⟩))
    · have hends : q = n + left.stateCount + right.stateCount ∨
          q = n + left.stateCount + right.stateCount + 1 := by omega
      exact Nfa.mem_states_iff.2 (hends.imp_right .inl)
  | star inner ih =>
    simp only [State.Between, stateCount] at h
    by_cases hinner : q < n + inner.stateCount
    · exact Nfa.mem_states_star (ih n ⟨h.1, hinner⟩)
    · have hends : q = n + inner.stateCount ∨ q = n + inner.stateCount + 1 := by omega
      exact Nfa.mem_states_iff.2 (hends.imp_right .inl)

theorem Expr.mem_states_thompson_iff (e : Expr) (n : Nat) {q : State} :
    q ∈ (e.thompson n).states ↔ State.Between n (n + e.stateCount) q :=
  ⟨(e.within_thompson n).between, e.mem_states_thompson n⟩

namespace Nfa

variable {allocator : Allocator} {rpn : List Token} {nfa : Nfa} {q : State}

theorem mem_states_ofRpn_iff (h : (ofRpn allocator rpn).1 = .ok nfa) :
    q ∈ nfa.states ↔ State.Between allocator.next (ofRpn allocator rpn).2.next q := by
  obtain ⟨e, rfl, rfl⟩ := ofRpn_eq_ok_iff.1 h
  rw [ofRpn_expr, e.mem_states_thompson_iff]

theorem ofRpn_eq_rename (allocator : Allocator) (rpn : List Token) :
    ofRpn allocator rpn = ((ofRpn {} rpn).1.map (rename (allocator.next + ·)),
      ⟨allocator.next + (ofRpn {} rpn).2.next⟩) :=
  ofRpn_shift allocator.next {} rpn

end Nfa

namespace Allocator

inductive Request where
  | state
  | automaton (rpn : List Token)

inductive Reply where
  | state (q : State)
  | automaton (built : Except BuildError Nfa)

namespace Reply

def states : Reply → StateSet
  | state q => .ofList [q]
  | automaton (.ok nfa) => nfa.states
  | automaton (.error _) => ∅

end Reply

def serve (allocator : Allocator) : Request → Reply × Allocator
  | .state => (.state allocator.fresh.1, allocator.fresh.2)
  | .automaton rpn => (.automaton (Nfa.ofRpn allocator rpn).1, (Nfa.ofRpn allocator rpn).2)

structure Service where
  before : Allocator
  request : Request
  reply : Reply
  after : Allocator

/-- The requests one after another, with no reset between them. -/
def session (allocator : Allocator) : List Request → List Service
  | [] => []
  | request :: rest =>
    let (reply, after) := allocator.serve request
    ⟨allocator, request, reply, after⟩ :: after.session rest

variable {allocator : Allocator} {request : Request} {requests : List Request} {service : Service} {q : State}

theorem next_le_serve (allocator : Allocator) (request : Request) :
    allocator.next ≤ (allocator.serve request).2.next := by
  cases request with
  | state => exact Nat.le_succ _
  | automaton rpn =>
    rw [serve, Nfa.ofRpn_eq_rename]
    exact Nat.le_add_right _ _

theorem between_of_mem_serve (h : q ∈ (allocator.serve request).1.states) :
    State.Between allocator.next (allocator.serve request).2.next q := by
  cases request with
  | state =>
    have heq : q = allocator.next := by simpa [serve, Reply.states, fresh] using h
    rw [heq]
    exact ⟨Nat.le_refl _, Nat.lt_succ_self _⟩
  | automaton rpn =>
    simp only [serve] at h ⊢
    cases hbuilt : (Nfa.ofRpn allocator rpn).1 with
    | error error =>
      rw [hbuilt] at h
      exact absurd h (OrderedSet.not_mem_empty q)
    | ok nfa =>
      rw [hbuilt] at h
      exact (Nfa.mem_states_ofRpn_iff hbuilt).1 h

theorem serve_of_mem_session (h : service ∈ allocator.session requests) :
    service.before.serve service.request = (service.reply, service.after) ∧
      allocator.next ≤ service.before.next := by
  induction requests generalizing allocator with
  | nil => cases h
  | cons request requests ih =>
    rcases List.mem_cons.1 h with heq | hrest
    · rw [heq]
      exact ⟨rfl, Nat.le_refl _⟩
    · obtain ⟨hserve, hle⟩ := ih hrest
      exact ⟨hserve, (next_le_serve allocator request).trans hle⟩

theorem pairwise_session (allocator : Allocator) (requests : List Request) :
    (allocator.session requests).Pairwise fun earlier later ↦
      ∀ q ∈ earlier.reply.states, q ∉ later.reply.states := by
  induction requests generalizing allocator with
  | nil => exact .nil
  | cons request requests ih =>
    apply List.Pairwise.cons _ (ih _)
    intro later hlater q hq hq'
    obtain ⟨hserve, hle⟩ := serve_of_mem_session hlater
    -- What is handed out later lies above all that was handed out before.
    have hearlier := between_of_mem_serve hq
    have hbetween : State.Between later.before.next (later.before.serve later.request).2.next q := by
      apply between_of_mem_serve
      rwa [hserve]
    exact hearlier.disjoint (hbetween.mono hle (Nat.le_refl _))

/-- Between resets no state is handed out twice. An automaton has exactly the states taken for it, and is
the one that a new allocator gives, with every state moved up by the number of states taken before. -/
theorem session_states (allocator : Allocator) (requests : List Request) :
    (∀ service ∈ allocator.session requests, ∀ rpn, service.request = .automaton rpn →
        service.reply = .automaton
            ((Nfa.ofRpn {} rpn).1.map (Nfa.rename (service.before.next + ·))) ∧
          ∀ nfa, service.reply = .automaton (.ok nfa) → ∀ q,
            q ∈ nfa.states ↔ service.before.next ≤ q ∧ q < service.after.next) ∧
      (allocator.session requests).Pairwise fun earlier later ↦
        ∀ q ∈ earlier.reply.states, q ∉ later.reply.states := by
  refine ⟨fun service hservice rpn hrequest ↦ ?_, pairwise_session allocator requests⟩
  obtain ⟨hserve, -⟩ := serve_of_mem_session hservice
  rw [hrequest, serve] at hserve
  obtain ⟨hreply, hafter⟩ := Prod.mk.inj hserve
  constructor
  · rw [← hreply, Nfa.ofRpn_eq_rename]
  · intro nfa hnfa q
    rw [← hreply] at hnfa
    rw [← hafter]
    exact Nfa.mem_states_ofRpn_iff (Reply.automaton.inj hnfa)

/-- A build that fails keeps the states it took. -/
example :
    let requests := [.state, .automaton [.literal 'a', .operator .alternation], .automaton [.literal 'a']]
    (({} : Allocator).session requests).map (fun service ↦ (service.reply, service.after.next)) =
      [(.state 0, 1),
       (.automaton (.error (.missingOperand .alternation 1)), 3),
       (.automaton (.ok ⟨3, 4, [⟨3, 4, .symbol 'a'⟩]⟩), 5)] :=
  rfl

end Allocator

end RegexCompiler
