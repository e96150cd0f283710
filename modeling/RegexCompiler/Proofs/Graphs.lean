import Mathlib.Data.List.Forall2
import Mathlib.Data.List.Nodup
import RegexCompiler.Graph
import RegexCompiler.Proofs.Allocation
import RegexCompiler.Proofs.Names
import RegexCompiler.Proofs.Pushdown
import RegexCompiler.Proofs.StackActions

namespace RegexCompiler

namespace Graph

structure Legend (σ τ : Type) where
  name : σ → String
  source : τ → σ
  target : τ → σ
  label : τ → String

structure Content (σ τ : Type) where
  states : List σ
  start : σ
  accepting : List σ
  transitions : List τ

variable {σ τ : Type} {legend : Legend σ τ} {content content' : Content σ τ} {s : σ}

def Legend.edge (legend : Legend σ τ) (t : τ) : Edge :=
  ⟨legend.name (legend.source t), legend.name (legend.target t), legend.label t⟩

theorem Legend.eq_of_map_edge_eq {xs ys : List τ}
    (hedge : ∀ x ∈ xs, ∀ y ∈ ys, legend.edge x = legend.edge y → x = y)
    (h : xs.map legend.edge = ys.map legend.edge) : xs = ys := by
  induction xs generalizing ys with
  | nil => exact (List.map_eq_nil_iff.1 h.symm).symm
  | cons x xs ih =>
    cases ys with
    | nil => cases h
    | cons y ys =>
      obtain ⟨hfirst, hrest⟩ := List.cons_eq_cons.1 h
      have hxy := hedge x List.mem_cons_self y List.mem_cons_self hfirst
      have hxs := ih (fun x' hx' y' hy' ↦
        hedge x' (List.mem_cons_of_mem x hx') y' (List.mem_cons_of_mem y hy')) hrest
      rw [hxy, hxs]

variable [DecidableEq σ]

namespace Legend

def node (legend : Legend σ τ) (content : Content σ τ) (s : σ) : Node :=
  .ofState (legend.name s) (s = content.start) (s ∈ content.accepting)

def graph (legend : Legend σ τ) (content : Content σ τ) : Graph :=
  ⟨content.states.map (legend.node content), content.transitions.map legend.edge⟩

end Legend

/-- The states of an automaton are listed once, and the others that it mentions are among them. -/
structure Content.WellFormed (content : Content σ τ) (legend : Legend σ τ) : Prop where
  nodup_states : content.states.Nodup
  start_mem : content.start ∈ content.states
  accepting_eq : content.states.filter (· ∈ content.accepting) = content.accepting
  source_mem : ∀ t ∈ content.transitions, legend.source t ∈ content.states
  target_mem : ∀ t ∈ content.transitions, legend.target t ∈ content.states

/-- A graph shows an automaton: each state has a node under an id of its own, each transition in turn an edge
between the nodes found under its ends, and the roles of the states are marked. -/
structure Depicts (graph : Graph) (legend : Legend σ τ) (content : Content σ τ) : Prop where
  nodup_ids : (graph.nodes.map Node.id).Nodup
  nodes_eq : graph.nodes = content.states.map (legend.node content)
  edges : List.Forall₂ (fun edge t ↦ edge = legend.edge t ∧
    graph.node? edge.source = some (legend.node content (legend.source t)) ∧
    graph.node? edge.target = some (legend.node content (legend.target t))) graph.edges content.transitions
  start_eq : graph.nodes.filter Node.start = [legend.node content content.start]
  accept_eq : graph.nodes.filter Node.accept = content.accepting.map (legend.node content)

theorem filter_eq_singleton {xs : List σ} {x : σ} (hnodup : xs.Nodup) (hx : x ∈ xs) :
    xs.filter (· = x) = [x] := by
  rw [List.filter_eq, List.count_eq_one_of_mem hnodup hx, List.replicate_one]

theorem find?_eq_some_of_mem {xs : List σ} {x : σ} (hx : x ∈ xs) : xs.find? (· = x) = some x := by
  have hsome : (xs.find? (· = x)).isSome = true := List.find?_isSome.2 ⟨x, hx, decide_eq_true rfl⟩
  obtain ⟨y, hfind⟩ := Option.isSome_iff_exists.1 hsome
  have hy := List.find?_some hfind
  rw [hfind, of_decide_eq_true hy]

namespace Legend

/-- With names that tell the states apart, a node is found under the name of its state. -/
theorem node?_graph (hname : legend.name.Injective) (hs : s ∈ content.states) :
    (legend.graph content).node? (legend.name s) = some (legend.node content s) := by
  have hid : (fun node : Node ↦ decide (node.id = legend.name s)) ∘ legend.node content =
      fun s' ↦ decide (s' = s) := by
    funext s'
    exact decide_eq_decide.2 hname.eq_iff
  rw [node?, graph, List.find?_map, hid, find?_eq_some_of_mem hs, Option.map_some]

theorem depicts (hname : legend.name.Injective) (hcontent : content.WellFormed legend) :
    (legend.graph content).Depicts legend content where
  nodup_ids := by
    have hids : (legend.graph content).nodes.map Node.id = content.states.map legend.name := List.map_map
    rw [hids]
    exact hcontent.nodup_states.map hname
  nodes_eq := rfl
  edges := by
    rw [graph, List.forall₂_map_left_iff, List.forall₂_same]
    intro t ht
    exact ⟨rfl, node?_graph hname (hcontent.source_mem t ht), node?_graph hname (hcontent.target_mem t ht)⟩
  start_eq := by
    have hstart := filter_eq_singleton hcontent.nodup_states hcontent.start_mem
    exact List.filter_map.trans (congrArg (List.map (legend.node content)) hstart)
  accept_eq := List.filter_map.trans (congrArg (List.map (legend.node content)) hcontent.accepting_eq)

/-- What a graph shows can be read off it, if the names tell the states apart and the edges the transitions. -/
theorem content_eq_of_graph_eq (hname : legend.name.Injective) (hcontent : content.WellFormed legend)
    (hcontent' : content'.WellFormed legend)
    (hedge : ∀ t ∈ content.transitions, ∀ t' ∈ content'.transitions, legend.edge t = legend.edge t' → t = t')
    (h : legend.graph content = legend.graph content') : content = content' := by
  obtain ⟨hnodes, hedges⟩ := Graph.mk.inj h
  have hids := congrArg (List.map Node.id) hnodes
  rw [List.map_map, List.map_map] at hids
  have hstates : content.states = content'.states := List.map_injective_iff.2 hname hids
  rw [← hstates] at hnodes
  -- The states are the same by now, so a difference in the marks would show in the node of some state.
  have hnode : ∀ s ∈ content.states, legend.node content s = legend.node content' s :=
    List.map_inj_left.1 hnodes
  have hstart : content.start = content'.start := by
    have hmarked := congrArg Node.start (hnode content.start hcontent.start_mem)
    exact (decide_eq_decide.1 hmarked).1 rfl
  have haccepting : content.accepting = content'.accepting := by
    rw [← hcontent.accepting_eq, ← hcontent'.accepting_eq, ← hstates]
    exact List.filter_congr fun s hs ↦ congrArg Node.accept (hnode s hs)
  have htransitions := eq_of_map_edge_eq hedge hedges
  cases content
  cases content'
  congr

end Legend

end Graph

open RegexCompiler.Graph

namespace Nfa

def legend : Legend State Transition :=
  ⟨State.name, Transition.source, Transition.target, fun t ↦ t.label.text⟩

def content (nfa : Nfa) : Content State Transition :=
  ⟨nfa.states.toList, nfa.start, [nfa.accept], nfa.transitions⟩

theorem graph_eq (nfa : Nfa) : nfa.graph = legend.graph nfa.content := by
  have hnode : legend.node nfa.content = fun q ↦ .ofState (State.name q) (q = nfa.start) (q = nfa.accept) := by
    funext q
    exact congrArg (Node.ofState (State.name q) _) (decide_eq_decide.2 List.mem_singleton)
  rw [Legend.graph, hnode]
  rfl

theorem wellFormed_content (nfa : Nfa) : nfa.content.WellFormed legend where
  nodup_states := nfa.states.nodup_toList
  start_mem := start_mem_states
  accepting_eq := by
    have haccept : nfa.accept ∈ nfa.states := accept_mem_states
    simpa [content] using filter_eq_singleton nfa.states.nodup_toList haccept
  source_mem t ht := source_mem_states ht
  target_mem t ht := target_mem_states ht

theorem eq_of_content_eq {nfa nfa' : Nfa} (h : nfa.content = nfa'.content) : nfa = nfa' := by
  obtain ⟨-, hstart, haccept, htransitions⟩ := Content.mk.inj h
  cases nfa
  cases nfa'
  congr
  exact List.singleton_inj.1 haccept

theorem eq_of_edge_eq {t t' : Transition} (ht : t.label ≠ .symbol 'ε') (ht' : t'.label ≠ .symbol 'ε')
    (h : legend.edge t = legend.edge t') : t = t' := by
  obtain ⟨hsource, htarget, hlabel⟩ := Edge.mk.inj h
  cases t
  cases t'
  congr
  · exact State.name_injective hsource
  · exact State.name_injective htarget
  · exact Label.eq_of_text_eq ht ht' hlabel

end Nfa

namespace Dfa

def legend : Legend StateSet Transition :=
  ⟨StateSet.name, Transition.source, Transition.target, fun t ↦ String.singleton t.symbol⟩

def content (dfa : Dfa) : Content StateSet Transition :=
  ⟨dfa.states, dfa.start, dfa.accepting, dfa.transitions⟩

theorem graph_eq (dfa : Dfa) : dfa.graph = legend.graph dfa.content := rfl

theorem wellFormed_content (nfa : Nfa) : nfa.determinize.content.WellFormed legend where
  nodup_states := Nfa.nodup_determinize
  start_mem := Nfa.startSet_mem_determinize
  accepting_eq := by
    change nfa.determinize.states.filter (· ∈ nfa.determinize.accepting) =
      nfa.determinize.states.filter (nfa.accept ∈ ·)
    refine List.filter_congr fun s hs ↦ decide_eq_decide.2 ?_
    simp [Nfa.accepting_determinize, hs]
  source_mem t ht := (Nfa.mem_determinize_transitions_iff.1 ht).1
  target_mem t ht := by
    obtain ⟨hsource, htarget, hempty⟩ := Nfa.mem_determinize_transitions_iff.1 ht
    rw [htarget] at hempty
    have hnext := Nfa.next_mem_determinize hsource hempty
    rwa [← htarget] at hnext

theorem eq_of_content_eq {dfa dfa' : Dfa} (h : dfa.content = dfa'.content) : dfa = dfa' := by
  obtain ⟨hstates, hstart, haccepting, htransitions⟩ := Content.mk.inj h
  cases dfa
  cases dfa'
  congr

theorem eq_of_edge_eq {t t' : Transition} (h : legend.edge t = legend.edge t') : t = t' := by
  obtain ⟨hsource, htarget, hlabel⟩ := Edge.mk.inj h
  have hsymbol : t.symbol = t'.symbol := by simpa [legend] using congrArg String.toList hlabel
  cases t
  cases t'
  congr
  · exact StateSet.name_injective hsource
  · exact StateSet.name_injective htarget

end Dfa

namespace Pda

def legend : Legend State Transition :=
  ⟨State.name, Transition.source, Transition.target, Transition.label⟩

def content (pda : Pda) : Content State Transition :=
  ⟨pda.states, pda.start, pda.accepting, pda.transitions⟩

theorem graph_eq (pda : Pda) : pda.graph = legend.graph pda.content := rfl

variable {nfa : Nfa} {dfa : Dfa} {actions : ActionTable} {pda : Pda}

theorem states_of_ofDfa (h : ofDfa dfa actions = .ok pda) :
    pda.states = .start :: dfa.states.map .inner ++ [.accept] := by
  unfold ofDfa at h
  split at h
  · cases h
  · cases h
    rfl

theorem ends_mem_states (h : ofDfa nfa.determinize actions = .ok pda) {t : Transition}
    (ht : t ∈ pda.transitions) : t.source ∈ pda.states ∧ t.target ∈ pda.states := by
  have hdfa := Dfa.wellFormed_content nfa
  have hinner {s : StateSet} (hs : s ∈ nfa.determinize.states) : State.inner s ∈ pda.states := by
    simp [states_of_ofDfa h, hs]
  have haccept : State.accept ∈ pda.states := by simp [states_of_ofDfa h]
  rw [(ofDfa_eq_ok h).2.2] at ht
  rcases mem_derivedTransitions_iff.1 ht with rfl | ⟨d, hd, action, -, rfl⟩ | ⟨s, hs, rfl⟩
  · have hstart : State.start ∈ pda.states := by simp [states_of_ofDfa h]
    exact ⟨hstart, hinner hdfa.start_mem⟩
  · have hsource := hinner (hdfa.source_mem d hd)
    have htarget := hinner (hdfa.target_mem d hd)
    cases action with
    | push => exact ⟨hsource, htarget⟩
    | pop => exact ⟨hsource, htarget⟩
    | passThrough => exact ⟨hsource, haccept⟩
  · rw [Nfa.accepting_determinize] at hs
    exact ⟨hinner (List.mem_filter.1 hs).1, haccept⟩

theorem nodup_states (h : ofDfa nfa.determinize actions = .ok pda) : pda.states.Nodup := by
  have hinner : (nfa.determinize.states.map State.inner).Nodup :=
    Nfa.nodup_determinize.map fun _ _ ↦ State.inner.inj
  rw [states_of_ofDfa h]
  simp [List.nodup_append, hinner]

theorem wellFormed_content (h : ofDfa nfa.determinize actions = .ok pda) :
    pda.content.WellFormed legend where
  nodup_states := nodup_states h
  start_mem := by simp [content, (ofDfa_eq_ok h).1, states_of_ofDfa h]
  accepting_eq := by
    have haccept : State.accept ∈ pda.states := by simp [states_of_ofDfa h]
    have hfilter := filter_eq_singleton (nodup_states h) haccept
    simpa [content, (ofDfa_eq_ok h).2.1] using hfilter
  source_mem t ht := (ends_mem_states h ht).1
  target_mem t ht := (ends_mem_states h ht).2

theorem eq_of_content_eq {pda pda' : Pda} (h : pda.content = pda'.content) : pda = pda' := by
  obtain ⟨hstates, hstart, haccepting, htransitions⟩ := Content.mk.inj h
  cases pda
  cases pda'
  congr

theorem eq_of_edge_eq {t t' : Transition} (ht : t.input ≠ some 'ε') (ht' : t'.input ≠ some 'ε')
    (h : legend.edge t = legend.edge t') : t = t' := by
  obtain ⟨hsource, htarget, hlabel⟩ := Edge.mk.inj h
  obtain ⟨hinput, hpop, hpush⟩ := eq_of_label_eq ht ht' hlabel
  cases t
  cases t'
  congr
  · exact State.name_injective hsource
  · exact State.name_injective htarget

theorem input_ne_of_ofDfa (h : ofDfa dfa actions = .ok pda) {c : Char}
    (hdfa : ∀ d ∈ dfa.transitions, d.symbol ≠ c) {t : Transition} (ht : t ∈ pda.transitions) :
    t.input ≠ some c := by
  rw [(ofDfa_eq_ok h).2.2] at ht
  rcases mem_derivedTransitions_iff.1 ht with rfl | ⟨d, hd, action, -, rfl⟩ | ⟨s, -, rfl⟩
  · exact nofun
  · rw [Transition.input_ofDfa]
    exact fun heq ↦ hdfa d hd (Option.some.inj heq)
  · exact nofun

end Pda

/-- The graph of an automaton shows each state once and each transition in turn, and marks the start and the
accepting states, of which all but a deterministic automaton have one. -/
theorem graph_depicts (nfa : Nfa) :
    nfa.graph.Depicts Nfa.legend nfa.content ∧
      nfa.determinize.graph.Depicts Dfa.legend nfa.determinize.content ∧
      ∀ (actions : ActionTable) (pda : Pda), Pda.ofDfa nfa.determinize actions = .ok pda →
        pda.graph.Depicts Pda.legend pda.content ∧ pda.accepting = [.accept] := by
  refine ⟨?_, ?_, fun actions pda h ↦ ⟨?_, (Pda.ofDfa_eq_ok h).2.1⟩⟩
  · rw [Nfa.graph_eq]
    exact Legend.depicts State.name_injective nfa.wellFormed_content
  · rw [Dfa.graph_eq]
    exact Legend.depicts StateSet.name_injective (Dfa.wellFormed_content nfa)
  · rw [Pda.graph_eq]
    exact Legend.depicts Pda.State.name_injective (Pda.wellFormed_content h)

theorem graph_depicts_loopAb :
    ∃ pda, Pda.ofDfa Pda.loopAb.determinize .balancedAb = .ok pda ∧
      pda.graph.Depicts Pda.legend pda.content ∧ pda.accepting = [.accept] := by
  obtain ⟨pda, hpda⟩ := Pda.exists_derived_loopAb
  obtain ⟨-, -, hgraph⟩ := graph_depicts Pda.loopAb
  exact ⟨pda, hpda, hgraph .balancedAb pda hpda⟩

/-- An automaton can be read off its graph, if it reads no symbol that is written like the missing one. -/
theorem eq_of_graph_eq :
    (∀ nfa nfa' : Nfa, nfa.determinize.graph = nfa'.determinize.graph → nfa.determinize = nfa'.determinize) ∧
      (∀ nfa nfa' : Nfa, (∀ t ∈ nfa.transitions, t.label ≠ .symbol 'ε') →
        (∀ t ∈ nfa'.transitions, t.label ≠ .symbol 'ε') → nfa.graph = nfa'.graph → nfa = nfa') ∧
      ∀ (nfa nfa' : Nfa) (actions actions' : ActionTable) (pda pda' : Pda),
        Pda.ofDfa nfa.determinize actions = .ok pda → Pda.ofDfa nfa'.determinize actions' = .ok pda' →
        (∀ t ∈ nfa.determinize.transitions, t.symbol ≠ 'ε') →
        (∀ t ∈ nfa'.determinize.transitions, t.symbol ≠ 'ε') → pda.graph = pda'.graph → pda = pda' := by
  refine ⟨fun nfa nfa' h ↦ ?_, fun nfa nfa' hnfa hnfa' h ↦ ?_,
    fun nfa nfa' actions actions' pda pda' hpda hpda' hdfa hdfa' h ↦ ?_⟩
  · refine Dfa.eq_of_content_eq (Legend.content_eq_of_graph_eq StateSet.name_injective
      (Dfa.wellFormed_content nfa) (Dfa.wellFormed_content nfa') (fun t _ t' _ ↦ ?_) h)
    exact Dfa.eq_of_edge_eq
  · rw [Nfa.graph_eq, Nfa.graph_eq] at h
    refine Nfa.eq_of_content_eq (Legend.content_eq_of_graph_eq State.name_injective
      nfa.wellFormed_content nfa'.wellFormed_content (fun t ht t' ht' ↦ ?_) h)
    exact Nfa.eq_of_edge_eq (hnfa t ht) (hnfa' t' ht')
  · refine Pda.eq_of_content_eq (Legend.content_eq_of_graph_eq Pda.State.name_injective
      (Pda.wellFormed_content hpda) (Pda.wellFormed_content hpda') (fun t ht t' ht' ↦ ?_) h)
    exact Pda.eq_of_edge_eq (Pda.input_ne_of_ofDfa hpda hdfa ht) (Pda.input_ne_of_ofDfa hpda' hdfa' ht')

theorem eq_of_graph_eq_loopAb :
    Pda.loopAb.graph ≠ (⟨0, 0, [⟨0, 0, .symbol 'b'⟩, ⟨0, 0, .symbol 'a'⟩]⟩ : Nfa).graph ∧
      ∃ pda pda', Pda.ofDfa Pda.loopAb.determinize .balancedAb = .ok pda ∧
        Pda.ofDfa Pda.loopAb.determinize (ActionTable.balancedAb.set 'c' .passThrough) = .ok pda' ∧
          pda.graph = pda'.graph ∧ pda = pda' := by
  have hsymbol : ∀ t ∈ Pda.loopAb.determinize.transitions, t.symbol ≠ 'ε' := by
    intro t ht
    rcases Pda.symbol_loopAb ht with heq | heq <;> rw [heq] <;> decide
  -- The other table has an action more, for a symbol that is never read.
  have hsame : Pda.ofDfa Pda.loopAb.determinize (ActionTable.balancedAb.set 'c' .passThrough) =
      Pda.ofDfa Pda.loopAb.determinize .balancedAb := by
    apply Pda.ofDfa_congr
    intro t ht
    rcases Pda.symbol_loopAb ht with heq | heq <;> rw [heq] <;> decide
  obtain ⟨pda, hpda⟩ := Pda.exists_derived_loopAb
  have hpda' := hsame.trans hpda
  obtain ⟨-, hnfa, heq⟩ := eq_of_graph_eq
  refine ⟨fun h ↦ ?_, pda, pda, hpda, hpda', rfl, heq _ _ _ _ pda pda hpda hpda' hsymbol hsymbol rfl⟩
  exact absurd (hnfa _ _ (by decide) (by decide) h) (by decide)

/-- A transition that reads nothing and one that reads the symbol `ε` are drawn alike. -/
example : (⟨0, 1, [⟨0, 1, .epsilon⟩]⟩ : Nfa).graph = (⟨0, 1, [⟨0, 1, .symbol 'ε'⟩]⟩ : Nfa).graph := rfl

end RegexCompiler
