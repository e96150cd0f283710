import RegexCompiler.Nfa.Thompson
import RegexCompiler.Proofs.Scan

namespace RegexCompiler.Nfa

def Transition.rename (f : State → State) (t : Transition) : Transition := ⟨f t.source, f t.target, t.label⟩

def rename (f : State → State) (nfa : Nfa) : Nfa where
  start := f nfa.start
  accept := f nfa.accept
  transitions := nfa.transitions.map (.rename f)

section Constructors

variable {first second inner : Nfa} {start accept : State} {f : State → State} {c : Char}

theorem rename_ofLiteral : (ofLiteral start accept c).rename f = ofLiteral (f start) (f accept) c := rfl

theorem rename_concat : (first.concat second).rename f = (first.rename f).concat (second.rename f) := by
  simp [rename, concat, Transition.rename, Transition.epsilon]

theorem rename_alternation :
    (alternation start accept first second).rename f =
      alternation (f start) (f accept) (first.rename f) (second.rename f) := by
  simp [rename, alternation, Transition.rename, Transition.epsilon]

theorem rename_star :
    (star start accept inner).rename f = star (f start) (f accept) (inner.rename f) := by
  simp [rename, star, Transition.rename, Transition.epsilon]

end Constructors

namespace Assembly

variable {n index : Nat} {assembly : Assembly} {fragments : List Nfa}

/-- The construction with `n` states handed out before it. -/
def shift (n : Nat) (assembly : Assembly) : Assembly :=
  ⟨⟨n + assembly.allocator.next⟩, assembly.fragments.map (rename (n + ·))⟩

theorem push_shift {allocator : Allocator} {fragment fragment' : State → State → Nfa}
    (h : ∀ start accept, (fragment start accept).rename (n + ·) = fragment' (n + start) (n + accept)) :
    push ⟨n + allocator.next⟩ fragment' (fragments.map (rename (n + ·))) =
      (push allocator fragment fragments).shift n := by
  simp only [push, shift, Allocator.fresh, List.map_cons, h, Nat.add_assoc]

theorem concat_shift (n : Nat) (allocator : Allocator) (first second : Nfa) (rest : List Nfa) :
    ⟨⟨n + allocator.next⟩, (first.rename (n + ·)).concat (second.rename (n + ·)) ::
      rest.map (rename (n + ·))⟩ = shift n ⟨allocator, first.concat second :: rest⟩ := by
  rw [shift, List.map_cons, rename_concat]

theorem step_shift (n index : Nat) (assembly : Assembly) (t : Token) :
    step index (assembly.shift n) t = (step index assembly t).map (shift n) := by
  obtain ⟨allocator, fragments⟩ := assembly
  cases t with
  | literal c => exact congrArg Except.ok (push_shift fun _ _ ↦ rename_ofLiteral)
  | operator op =>
    cases op with
    | concat =>
      rcases fragments with _ | ⟨second, _ | ⟨first, rest⟩⟩
      · rfl
      · rfl
      · exact congrArg Except.ok (concat_shift n allocator first second rest)
    | alternation =>
      rcases fragments with _ | ⟨second, _ | ⟨first, rest⟩⟩
      · rfl
      · rfl
      · exact congrArg Except.ok (push_shift fun _ _ ↦ rename_alternation)
    | star =>
      rcases fragments with _ | ⟨inner, rest⟩
      · rfl
      · exact congrArg Except.ok (push_shift fun _ _ ↦ rename_star)
  | groupOpen | groupClose | invalid => rfl

theorem finish_shift (n : Nat) (assembly : Assembly) :
    (assembly.shift n).finish = assembly.finish.map (rename (n + ·)) := by
  obtain ⟨allocator, fragments⟩ := assembly
  rcases fragments with _ | ⟨nfa, _ | ⟨nfa', rest⟩⟩
  · rfl
  · rfl
  · simp [finish, shift, Except.map]

end Assembly

/-- A build depends on the states handed out before it only in the names of its own. -/
theorem ofRpn_shift (n : Nat) (allocator : Allocator) (rpn : List Token) :
    ofRpn ⟨n + allocator.next⟩ rpn =
      ((ofRpn allocator rpn).1.map (rename (n + ·)), ⟨n + (ofRpn allocator rpn).2.next⟩) := by
  have hrun : Scan.run Assembly.step 0 ⟨⟨n + allocator.next⟩, []⟩ rpn = _ :=
    Scan.run_map (Assembly.step_shift n) 0 ⟨allocator, []⟩ rpn
  rw [ofRpn, hrun, ofRpn]
  obtain ⟨assembly, error⟩ := Scan.run Assembly.step 0 ⟨allocator, []⟩ rpn
  cases error with
  | none => exact Prod.ext (Assembly.finish_shift n assembly) rfl
  | some error => rfl

end RegexCompiler.Nfa
