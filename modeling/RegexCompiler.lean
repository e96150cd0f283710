import RegexCompiler.Alphabet
import RegexCompiler.Check
import RegexCompiler.CommandLine.Arguments
import RegexCompiler.CommandLine.Compile
import RegexCompiler.CommandLine.Fuzz
import RegexCompiler.CommandLine.Options
import RegexCompiler.CommandLine.Outcome
import RegexCompiler.Compiler
import RegexCompiler.Dfa.Basic
import RegexCompiler.Dfa.Subsets
import RegexCompiler.Dfa.Table
import RegexCompiler.Expr.Basic
import RegexCompiler.Expr.Grammar
import RegexCompiler.Expr.Source
import RegexCompiler.Fuzzer
import RegexCompiler.Graph
import RegexCompiler.Index
import RegexCompiler.Log
import RegexCompiler.Main
import RegexCompiler.Nfa.Basic
import RegexCompiler.Nfa.Table
import RegexCompiler.Nfa.Thompson
import RegexCompiler.OrderedSet
import RegexCompiler.ParseError
import RegexCompiler.Parsed
import RegexCompiler.Pda.Action
import RegexCompiler.Pda.Basic
import RegexCompiler.Pda.Derive
import RegexCompiler.Pda.Search
import RegexCompiler.Proofs.Agreement
import RegexCompiler.Proofs.Allocation
import RegexCompiler.Proofs.Balance
import RegexCompiler.Proofs.Batch
import RegexCompiler.Proofs.Compilation
import RegexCompiler.Proofs.Concatenation
import RegexCompiler.Proofs.Construction
import RegexCompiler.Proofs.ConstructionErrors
import RegexCompiler.Proofs.Conversion
import RegexCompiler.Proofs.ConversionOutcome
import RegexCompiler.Proofs.Determinization
import RegexCompiler.Proofs.Entries
import RegexCompiler.Proofs.FuzzerRuns
import RegexCompiler.Proofs.Grammar
import RegexCompiler.Proofs.Graphs
import RegexCompiler.Proofs.Literals
import RegexCompiler.Proofs.Log
import RegexCompiler.Proofs.Names
import RegexCompiler.Proofs.ParseErrors
import RegexCompiler.Proofs.Pushdown
import RegexCompiler.Proofs.PushdownSearch
import RegexCompiler.Proofs.RandomEdit
import RegexCompiler.Proofs.RandomExpr
import RegexCompiler.Proofs.Reachability
import RegexCompiler.Proofs.Renaming
import RegexCompiler.Proofs.Rendering
import RegexCompiler.Proofs.RequestedActions
import RegexCompiler.Proofs.Scan
import RegexCompiler.Proofs.SearchRenaming
import RegexCompiler.Proofs.Separation
import RegexCompiler.Proofs.Shape
import RegexCompiler.Proofs.Simulation
import RegexCompiler.Proofs.StackActions
import RegexCompiler.Proofs.StateCount
import RegexCompiler.Proofs.SubsetAutomaton
import RegexCompiler.Proofs.SubsetRenaming
import RegexCompiler.Proofs.Tally
import RegexCompiler.Proofs.Thompson
import RegexCompiler.Proofs.TokenText
import RegexCompiler.Proofs.Trim
import RegexCompiler.Proofs.Walks
import RegexCompiler.Proofs.Words
import RegexCompiler.Random.Draw
import RegexCompiler.Random.Edit
import RegexCompiler.Random.Expr
import RegexCompiler.Random.Generator
import RegexCompiler.Report
import RegexCompiler.Scan
import RegexCompiler.Search
import RegexCompiler.Text.Blank
import RegexCompiler.Text.Json
import RegexCompiler.Text.Lines
import RegexCompiler.Text.Quoted
import RegexCompiler.Text.Ranges
import RegexCompiler.Text.Unprintable
import RegexCompiler.Token
import RegexCompiler.Token.Concatenation
import RegexCompiler.Token.Rpn
import RegexCompiler.Words
