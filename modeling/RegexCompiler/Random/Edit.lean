import RegexCompiler.Random.Draw

namespace RegexCompiler

inductive Edit where
  | insertOperator
  | eraseRange
deriving DecidableEq

namespace Edit

variable {γ : Type}

def insertable : List Char := "|*().  ".toList

def insertAt (source : List Char) (position : Nat) (c : Char) : Draw γ (List Char) :=
  if position ≤ source.length then return source.take position ++ c :: source.drop position
  else failure

def eraseBetween (source : List Char) (first last : Nat) : Draw γ (List Char) :=
  if first ≤ source.length ∧ last ≤ source.length then return source.take first ++ source.drop last
  else failure

variable [RandomSource γ]

def apply (source : List Char) : Edit → Draw γ (List Char)
  | insertOperator => do
    let position ← Draw.range 0 (source.length + 1)
    let c ← Draw.sample insertable
    insertAt source position c
  | eraseRange => do
    let first ← Draw.range 0 (source.length + 1)
    let last ← Draw.range first (source.length + 1)
    eraseBetween source first last

def applyAny (edits : List Edit) (source : List Char) : Draw γ (List Char) := do
  let edit ← Draw.sample edits
  edit.apply source

end Edit

end RegexCompiler
