import RegexCompiler.Check
import RegexCompiler.Expr.Source
import RegexCompiler.Random.Edit
import RegexCompiler.Random.Expr

namespace RegexCompiler

structure Fuzzer where
  iterations : Nat
  maxLength : Nat
  depth : Nat
  charset : List Char

namespace Fuzzer

variable {γ : Type} [RandomSource γ]

structure Tally where
  rejected : Int32 := 0
  compared : UInt64 := 0
deriving DecidableEq

/-- A count that outgrows its width wraps around, unless overflow is checked: then there is no result. -/
def Tally.add (overflowChecks : Bool) (tally : Tally) : Verdict → Option Tally
  | .agreed words =>
    if overflowChecks ∧ UInt64.size ≤ tally.compared.toNat + words then none
    else some { tally with compared := tally.compared + .ofNat words }
  | .rejected _ =>
    if overflowChecks ∧ tally.rejected = Int32.maxValue then none
    else some { tally with rejected := tally.rejected + 1 }

def drawSource (fuzzer : Fuzzer) : Draw γ (String × Bool) := do
  let expr ← Expr.draw fuzzer.charset fuzzer.depth
  if ← Draw.chance 1 3 then
    let edited ← Edit.applyAny [.insertOperator, .eraseRange] expr.source
    return (String.ofList edited, true)
  else return (String.ofList expr.source, false)

def rounds (fuzzer : Fuzzer) (overflowChecks : Bool) (compiler : Compiler) (tally : Tally) :
    Nat → Draw γ (Except (String × Mismatch) Tally)
  | 0 => return .ok tally
  | n + 1 => do
    let (source, _) ← fuzzer.drawSource
    let (result, compiler) := compiler.check source fuzzer.maxLength
    match result with
    | .error mismatch => return .error (source, mismatch)
    | .ok verdict =>
      match tally.add overflowChecks verdict with
      | none => failure
      | some tally => fuzzer.rounds overflowChecks compiler tally n

def run (fuzzer : Fuzzer) (overflowChecks : Bool) : Draw γ (Except (String × Mismatch) Tally) :=
  fuzzer.rounds overflowChecks {} {} fuzzer.iterations

end Fuzzer

end RegexCompiler
