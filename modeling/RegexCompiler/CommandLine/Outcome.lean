import RegexCompiler.CommandLine.Arguments

namespace RegexCompiler.CommandLine

structure Outcome where
  status : Nat := 0
  stdout : String := ""
  stderr : String := ""
deriving DecidableEq

namespace Outcome

def failure (message : String) : Outcome := { status := 1, stderr := "Error: " ++ message ++ "\n" }

def ofUsageError (help version : String) : UsageError → Outcome
  | .displayHelp => { stdout := help }
  | .displayVersion => { stdout := version }
  | _ => { status := 2, stderr := help }

/-- Outcomes one after another; the whole fails if any of them does. -/
def join (outcomes : List Outcome) : Outcome where
  status := outcomes.foldl (fun status outcome ↦ max status outcome.status) 0
  stdout := String.join (outcomes.map Outcome.stdout)
  stderr := String.join (outcomes.map Outcome.stderr)

end Outcome

end RegexCompiler.CommandLine
