import RegexCompiler.Dfa.Basic
import RegexCompiler.Pda.Action
import RegexCompiler.Pda.Basic

namespace RegexCompiler

inductive PdaError where
  | unsupportedSymbol (c : Char)
deriving DecidableEq

namespace PdaError

def message : PdaError → String
  | unsupportedSymbol c => s!"no stack action is configured for symbol '{c}'"

end PdaError

namespace Pda

def Transition.ofDfa (t : Dfa.Transition) : StackAction → Transition
  | .push => ⟨.inner t.source, .inner t.target, some t.symbol, none, some .marker⟩
  | .pop => ⟨.inner t.source, .inner t.target, some t.symbol, some .marker, none⟩
  | .passThrough => ⟨.inner t.source, .accept, some t.symbol, some .bottom, some .bottom⟩

theorem Transition.input_ofDfa (t : Dfa.Transition) (action : StackAction) :
    (ofDfa t action).input = some t.symbol := by cases action <;> rfl

def Transition.enter (state : StateSet) : Transition := ⟨.start, .inner state, none, none, some .bottom⟩

def Transition.leave (state : StateSet) : Transition :=
  ⟨.inner state, .accept, none, some .bottom, some .bottom⟩

def derivedTransitions (dfa : Dfa) (actions : ActionTable) : List Transition :=
  .enter dfa.start ::
    (dfa.transitions.filterMap fun t ↦ (actions.get? t.symbol).map (.ofDfa t)) ++
      dfa.accepting.map .leave

theorem descends_derivedTransitions {dfa : Dfa} {actions : ActionTable} {t : Transition}
    (ht : t ∈ derivedTransitions dfa actions) (hinput : t.input = none) :
    t.target.rank < t.source.rank := by
  unfold derivedTransitions at ht
  rcases List.mem_cons.1 ht with rfl | ht
  · simp [Transition.enter, State.rank]
  · rcases List.mem_append.1 ht with ht | ht
    · obtain ⟨d, -, hd⟩ := List.mem_filterMap.1 ht
      obtain ⟨action, -, rfl⟩ := Option.map_eq_some_iff.1 hd
      rw [Transition.input_ofDfa] at hinput
      cases hinput
    · obtain ⟨state, -, rfl⟩ := List.mem_map.1 ht
      simp [Transition.leave, State.rank]

/-- The pushdown automaton in which the symbols of a deterministic automaton act on the stack. It accepts
where that one does, provided that no marker is left, and after a symbol that passes through. -/
def ofDfa (dfa : Dfa) (actions : ActionTable) : Except PdaError Pda :=
  match dfa.transitions.find? fun t ↦ (actions.get? t.symbol).isNone with
  | some t => .error (.unsupportedSymbol t.symbol)
  | none => .ok {
      start := .start
      states := .start :: dfa.states.map .inner ++ [.accept]
      accepting := [.accept]
      transitions := derivedTransitions dfa actions
      descends := fun _ ↦ descends_derivedTransitions }

end Pda

end RegexCompiler
