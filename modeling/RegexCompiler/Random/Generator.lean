import RegexCompiler.Random.Draw

namespace RegexCompiler

structure Generator where
  seed : Nat
  state : BitVec 128

namespace Generator

def expand (x : BitVec 64) : BitVec 64 := x * 6364136223846793005 + 11634580027462260723

def expansion (x : BitVec 64) : BitVec 32 :=
  ((((x >>> 18) ^^^ x) >>> 27).setWidth 32).rotateRight (x >>> 59).toNat

def ofSeed (seed : Nat) : Generator :=
  let x₁ := expand (.ofNat 64 seed)
  let x₂ := expand x₁
  let x₃ := expand x₂
  let x₄ := expand x₃
  { seed, state := (expansion x₄ ++ expansion x₃ ++ expansion x₂ ++ expansion x₁) ||| 1 }

def next (generator : Generator) : BitVec 64 × Generator :=
  let state := generator.state * 0x2360ED051FC65DA44385DF649FCCF645
  let word := ((state >>> 64) ^^^ state).setWidth 64
  (word.rotateRight (state >>> 122).toNat, { generator with state })

def scale (bound : Nat) (hbound : 0 < bound) (word : BitVec 64) : Fin bound :=
  ⟨word.toNat * bound / 1 <<< 64, by
    have hword : word.toNat < 1 <<< 64 := word.isLt
    exact Nat.div_lt_of_lt_mul (Nat.mul_lt_mul_of_pos_right hword hbound)⟩

/-- Whether a word is among those of which equally many are scaled down to each number below the bound. -/
def isFair (bound : Nat) (word : BitVec 64) : Bool :=
  word.toNat * bound % 1 <<< 64 < bound <<< (63 - bound.log2)

def drawFair (bound : Nat) (hbound : 0 < bound) : Nat → Generator → Fin bound × Generator
  | 0, generator => (scale bound hbound generator.next.1, generator.next.2)
  | attempts + 1, generator =>
    let (word, generator) := generator.next
    if isFair bound word then (scale bound hbound word, generator)
    else drawFair bound hbound attempts generator

/-- The states repeat after 2^126 steps: if no word is fair until then, none ever is. -/
instance : RandomSource Generator where
  draw generator bound hbound := drawFair bound hbound (1 <<< 126) generator

end Generator

end RegexCompiler
