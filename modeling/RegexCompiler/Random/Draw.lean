namespace RegexCompiler

/-- A source of random numbers: from one state it draws a number below any positive bound, and moves on to
the next state. -/
class RandomSource (γ : Type) where
  draw : γ → (bound : Nat) → 0 < bound → Fin bound × γ

/-- A random computation that can fail. The numbers drawn before that stay used up. -/
abbrev Draw (γ : Type) := OptionT (StateM γ)

namespace Draw

variable {γ : Type} [RandomSource γ]

def below (bound : Nat) : Draw γ (Fin bound) :=
  OptionT.mk fun source ↦
    if h : 0 < bound then
      let (n, source) := RandomSource.draw source bound h
      (some n, source)
    else (none, source)

def range (lo hi : Nat) : Draw γ Nat := do
  let n ← below (hi - lo)
  return lo + n

def chance (numerator denominator : Nat) : Draw γ Bool := do
  let n ← below denominator
  return n < numerator

def sample {α : Type} (items : List α) : Draw γ α := do
  let n ← below items.length
  return items.get n

end Draw

end RegexCompiler
