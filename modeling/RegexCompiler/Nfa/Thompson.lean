import RegexCompiler.Nfa.Basic
import RegexCompiler.Scan
import RegexCompiler.Token

namespace RegexCompiler

structure Allocator where
  next : State := 0
deriving DecidableEq

namespace Allocator

def fresh (allocator : Allocator) : State × Allocator := (allocator.next, ⟨allocator.next + 1⟩)

def reset (_ : Allocator) : Allocator := {}

def allocated (allocator : Allocator) : Nat := allocator.next

end Allocator

/-- Why a token sequence describes no automaton. An index is the position of the offending token. -/
inductive BuildError where
  | missingOperand (op : Operator) (index : Nat)
  | unexpectedToken (token : Token) (index : Nat)
  | noFragment
  | danglingFragments (count : Nat)
deriving DecidableEq

namespace BuildError

def message : BuildError → String
  | missingOperand op index =>
    s!"operator '{op.char}' is missing an operand (postfix token {index})"
  | unexpectedToken token index =>
    s!"'{token.char}' can not appear in a postfix sequence (postfix token {index})"
  | noFragment => "the expression does not describe any automaton"
  | danglingFragments count => s!"{count} sub-automata are left without an operator joining them"

end BuildError

namespace Nfa

def Transition.epsilon (p q : State) : Transition := ⟨p, q, .epsilon⟩

def ofLiteral (start accept : State) (c : Char) : Nfa := ⟨start, accept, [⟨start, accept, .symbol c⟩]⟩

def concat (first second : Nfa) : Nfa where
  start := first.start
  accept := second.accept
  transitions := first.transitions ++ .epsilon first.accept second.start :: second.transitions

def alternation (start accept : State) (first second : Nfa) : Nfa where
  start
  accept
  transitions := .epsilon start first.start :: .epsilon start second.start ::
    .epsilon first.accept accept :: .epsilon second.accept accept ::
      (first.transitions ++ second.transitions)

def star (start accept : State) (inner : Nfa) : Nfa where
  start
  accept
  transitions := .epsilon start inner.start :: .epsilon start accept ::
    .epsilon inner.accept inner.start :: .epsilon inner.accept accept :: inner.transitions

/-- An automaton under construction: the states handed out so far, and the fragments that no operator has
joined yet, the newest one first. -/
structure Assembly where
  allocator : Allocator
  fragments : List Nfa

namespace Assembly

def push (allocator : Allocator) (fragment : State → State → Nfa) (fragments : List Nfa) : Assembly :=
  let (start, allocator) := allocator.fresh
  let (accept, allocator) := allocator.fresh
  ⟨allocator, fragment start accept :: fragments⟩

def step (index : Nat) (assembly : Assembly) : Token → Except BuildError Assembly
  | .literal c => .ok (push assembly.allocator (ofLiteral · · c) assembly.fragments)
  | .operator .concat =>
    match assembly.fragments with
    | second :: first :: rest => .ok ⟨assembly.allocator, first.concat second :: rest⟩
    | _ => .error (.missingOperand .concat index)
  | .operator .alternation =>
    match assembly.fragments with
    | second :: first :: rest => .ok (push assembly.allocator (alternation · · first second) rest)
    | _ => .error (.missingOperand .alternation index)
  | .operator .star =>
    match assembly.fragments with
    | inner :: rest => .ok (push assembly.allocator (star · · inner) rest)
    | [] => .error (.missingOperand .star index)
  | token => .error (.unexpectedToken token index)

def finish (assembly : Assembly) : Except BuildError Nfa :=
  match assembly.fragments with
  | [] => .error .noFragment
  | [nfa] => .ok nfa
  | fragments => .error (.danglingFragments fragments.length)

end Assembly

/-- Builds the automaton that a sequence in reverse Polish notation describes. A failed build keeps the
states it has taken. -/
def ofRpn (allocator : Allocator) (rpn : List Token) : Except BuildError Nfa × Allocator :=
  match Scan.run Assembly.step 0 ⟨allocator, []⟩ rpn with
  | (assembly, none) => (assembly.finish, assembly.allocator)
  | (assembly, some error) => (.error error, assembly.allocator)

end Nfa

end RegexCompiler
