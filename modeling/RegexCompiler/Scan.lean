namespace RegexCompiler.Scan

variable {σ ι ε : Type}

/-- Reads inputs from left to right. A step sees the position of its input and either moves on to the
next state or refuses; the result is the last state reached, with the refusal if there was one. -/
def run (step : Nat → σ → ι → Except ε σ) (position : Nat) (state : σ) : List ι → σ × Option ε
  | [] => (state, none)
  | x :: xs =>
    match step position state x with
    | .error e => (state, some e)
    | .ok next => run step (position + 1) next xs

def trail (step : Nat → σ → ι → Except ε σ) (position : Nat) (state : σ) : List ι → List (ι × σ)
  | [] => []
  | x :: xs =>
    match step position state x with
    | .error _ => []
    | .ok next => (x, next) :: trail step (position + 1) next xs

end RegexCompiler.Scan
