import RegexCompiler.Dfa.Basic
import RegexCompiler.Pda.Basic
import RegexCompiler.Text.Json

namespace RegexCompiler

namespace Graph

structure Node where
  id : String
  label : String
  start : Bool
  accept : Bool
deriving DecidableEq

/-- The label of a node shows its role above its name. -/
def Node.ofState (name : String) (start accept : Bool) : Node where
  id := name
  label := if accept then "ACCEPT\n" ++ name else if start then "START\n" ++ name else name
  start
  accept

structure Edge where
  source : String
  target : String
  label : String
deriving DecidableEq

end Graph

structure Graph where
  nodes : List Graph.Node := []
  edges : List Graph.Edge := []
deriving DecidableEq

namespace Graph

open Text (Json)

def node? (graph : Graph) (id : String) : Option Node := graph.nodes.find? fun node ↦ node.id = id

def Node.json (node : Node) : Json :=
  .object [("id", .string node.id), ("label", .string node.label), ("start", .bool node.start),
    ("accept", .bool node.accept)]

def Edge.json (edge : Edge) : Json :=
  .object [("source", .string edge.source), ("target", .string edge.target),
    ("label", .string edge.label)]

def json (graph : Graph) : Json :=
  .object [("nodes", .array (graph.nodes.map Node.json)), ("edges", .array (graph.edges.map Edge.json))]

end Graph

def Nfa.graph (nfa : Nfa) : Graph where
  nodes := nfa.states.toList.map fun q ↦ .ofState (State.name q) (q = nfa.start) (q = nfa.accept)
  edges := nfa.transitions.map fun t ↦ ⟨State.name t.source, State.name t.target, t.label.text⟩

def Dfa.graph (dfa : Dfa) : Graph where
  nodes := dfa.states.map fun s ↦ .ofState (StateSet.name s) (s = dfa.start) (dfa.isAccepting s)
  edges := dfa.transitions.map fun t ↦
    ⟨StateSet.name t.source, StateSet.name t.target, String.singleton t.symbol⟩

def Pda.graph (pda : Pda) : Graph where
  nodes := pda.states.map fun s ↦ .ofState s.name (s = pda.start) (pda.isAccepting s)
  edges := pda.transitions.map fun t ↦ ⟨t.source.name, t.target.name, t.label⟩

end RegexCompiler
