import Mathlib.Algebra.BigOperators.Group.List.Basic
import RegexCompiler.Proofs.Pushdown
import RegexCompiler.Proofs.SubsetAutomaton

namespace RegexCompiler.Pda

variable {pda : Pda} {config next : Configuration} {w : List Char} {taken pending : List Configuration}

/-- A search under way: the configurations it has taken up, and those on its stack. A round takes up the one
on top and puts its successors in its place. Whoever stops at an accepted configuration only cuts it short. -/
inductive Searching (pda : Pda) (w : List Char) : List Configuration → List Configuration → Prop
  | start : Searching pda w [] [⟨pda.start, w, []⟩]
  | round {taken rest : List Configuration} {config : Configuration} :
    Searching pda w taken (config :: rest) →
      Searching pda w (taken ++ [config]) ((pda.table.successors config).reverse ++ rest)

theorem Searching.visits_eq (h : pda.Searching w taken pending) :
    pda.visits w = taken ++ pda.table.visits pending := by
  induction h with
  | start => rfl
  | round _ ih => rw [ih, Table.visits, List.append_assoc, List.singleton_append]

/-- Whatever is put on the stack is taken up. -/
theorem Searching.mem_visits (h : pda.Searching w taken pending) (hconfig : config ∈ pending) :
    config ∈ pda.visits w := by
  rw [h.visits_eq]
  exact List.mem_append_right taken (mem_visits_iff.2 ⟨config, hconfig, .refl⟩)

theorem Searching.finish (h : pda.Searching w taken pending) :
    pda.Searching w (taken ++ pda.table.visits pending) [] := by
  induction pending using Table.visits.induct pda.table generalizing taken with
  | case1 => simpa [Table.visits] using h
  | case2 config rest ih =>
    rw [Table.visits, List.append_cons]
    exact ih h.round

theorem searching_visits (pda : Pda) (w : List Char) : pda.Searching w (pda.visits w) [] :=
  Searching.finish .start

/-- A search takes no more rounds than are granted to the configurations on its stack, if what is granted to
each covers a round for itself and what is granted to its successors. -/
theorem length_visits_le {table : pda.Table} {cost : Configuration → Nat}
    (hcost : ∀ config, ((table.successors config).map cost).sum < cost config)
    (pending : List Configuration) : (table.visits pending).length ≤ (pending.map cost).sum := by
  induction pending using Table.visits.induct table with
  | case1 => simp [Table.visits]
  | case2 config rest ih =>
    have hconfig := hcost config
    rw [List.map_append, List.sum_append, List.map_reverse, List.sum_reverse] at ih
    rw [Table.visits, List.length_cons, List.map_cons, List.sum_cons]
    omega

/-- Of a list of which at most one member has an image, the cost of the images is that of a single one. -/
theorem sum_filterMap_le {α β : Type} {f : α → Option β} {cost : β → Nat} {bound : Nat} {xs : List α}
    (hunique : xs.Pairwise fun x y ↦ f x = none ∨ f y = none)
    (hcost : ∀ x ∈ xs, ∀ y, f x = some y → cost y ≤ bound) :
    ((xs.filterMap f).map cost).sum ≤ bound := by
  induction xs with
  | nil => exact Nat.zero_le bound
  | cons x xs ih =>
    obtain ⟨hx, hxs⟩ := List.pairwise_cons.1 hunique
    cases hfx : f x with
    | none =>
      rw [List.filterMap_cons_none hfx]
      exact ih hxs fun y hy ↦ hcost y (List.mem_cons_of_mem x hy)
    | some y =>
      have hrest : xs.filterMap f = [] := List.filterMap_eq_nil_iff.2 fun z hz ↦
        (hx z hz).resolve_left (by simp [hfx])
      rw [List.filterMap_cons_some hfx, hrest]
      simpa using hcost x List.mem_cons_self y hfx

def Table.followers (table : pda.Table) (silent : Bool) (config : Configuration) : List Configuration :=
  ((table.lookup config.state).filter fun t ↦ t.input.isNone = silent).filterMap fun t ↦ t.next? config

theorem sum_successors (table : pda.Table) (config : Configuration) (cost : Configuration → Nat) :
    ((table.successors config).map cost).sum =
      ((table.followers true config).map cost).sum + ((table.followers false config).map cost).sum := by
  have hperm := List.filter_append_perm (fun t : Transition ↦ decide (t.input.isNone = true))
    (table.lookup config.state)
  have hsum := ((hperm.filterMap fun t ↦ t.next? config).map cost).sum_eq
  rw [List.filterMap_append, List.map_append, List.sum_append] at hsum
  have hreading : (fun t : Transition ↦ !decide (t.input.isNone = true)) =
      fun t ↦ decide (t.input.isNone = false) := by
    funext t
    cases t.input <;> rfl
  rw [hreading] at hsum
  exact hsum.symm

/-- Two transitions that apply to one configuration read the same, unless only one of them reads nothing. -/
theorem input_eq_of_next? {t t' : Transition} {next' : Configuration} (h : t.next? config = some next)
    (h' : t'.next? config = some next') (hsilent : t.input.isNone = t'.input.isNone) :
    t.input = t'.input := by
  obtain ⟨input, -, hread, -⟩ := Transition.next?_eq_some_iff.1 h
  obtain ⟨input', -, hread', -⟩ := Transition.next?_eq_some_iff.1 h'
  cases hc : t.input with
  | none =>
    rw [hc] at hsilent
    exact (Option.isNone_iff_eq_none.1 hsilent.symm).symm
  | some c =>
    cases hc' : t'.input with
    | none => simp [hc, hc'] at hsilent
    | some c' =>
      rw [hc, takeFront?_some] at hread
      rw [hc', takeFront?_some] at hread'
      rw [(List.cons_eq_cons.1 (hread.symm.trans hread')).1]

/-- When no two transitions leave a state with the same input, at most one follower of each kind is left. -/
theorem sum_followers_le {table : pda.Table} {cost : Configuration → Nat} {bound : Nat} {silent : Bool}
    (hnodup : (pda.transitions.map fun t ↦ (t.source, t.input)).Nodup)
    (hcost : ∀ t ∈ pda.transitions, t.source = config.state → t.input.isNone = silent →
      ∀ next, t.next? config = some next → cost next ≤ bound) :
    ((table.followers silent config).map cost).sum ≤ bound := by
  have hmem {t : Transition}
      (ht : t ∈ (table.lookup config.state).filter fun t ↦ decide (t.input.isNone = silent)) :
      t ∈ pda.transitions ∧ t.source = config.state ∧ t.input.isNone = silent := by
    simp only [List.mem_filter, Index.lookup_eq, decide_eq_true_eq, and_assoc] at ht
    exact ht
  apply sum_filterMap_le
  · rw [Index.lookup_eq]
    refine (((List.pairwise_map.1 hnodup).filter _).filter _).imp_of_mem fun {t t'} ht ht' hne ↦ ?_
    rw [← table.lookup_eq] at ht ht'
    obtain ⟨-, hsource, hsilent⟩ := hmem ht
    obtain ⟨-, hsource', hsilent'⟩ := hmem ht'
    -- If both applied, they would read the same from the same state, which no two transitions do.
    by_contra hboth
    rw [not_or, ← ne_eq, ← ne_eq, Option.ne_none_iff_exists', Option.ne_none_iff_exists'] at hboth
    obtain ⟨⟨next, hnext⟩, ⟨next', hnext'⟩⟩ := hboth
    have hinput := input_eq_of_next? hnext hnext' (hsilent.trans hsilent'.symm)
    exact hne (Prod.ext (hsource.trans hsource'.symm) hinput)
  · intro t ht next hnext
    obtain ⟨ht, hsource, hsilent⟩ := hmem ht
    exact hcost t ht hsource hsilent next hnext

section Derived

variable {nfa : Nfa} {actions : ActionTable} {t : Transition}

theorem source_ofDfa (d : Dfa.Transition) (action : StackAction) :
    (Transition.ofDfa d action).source = .inner d.source := by cases action <;> rfl

theorem key_of_map_ofDfa {d : Dfa.Transition} (ht : (actions.get? d.symbol).map (Transition.ofDfa d) = some t) :
    (t.source, t.input) = (State.inner d.source, some d.symbol) := by
  obtain ⟨action, -, rfl⟩ := Option.map_eq_some_iff.1 ht
  rw [source_ofDfa, Transition.input_ofDfa]

theorem pairwise_ofDfa (nfa : Nfa) (actions : ActionTable) :
    (nfa.determinize.transitions.filterMap fun d ↦
      (actions.get? d.symbol).map (Transition.ofDfa d)).Pairwise fun t t' ↦
        (t.source, t.input) ≠ (t'.source, t'.input) := by
  apply List.Pairwise.filterMap _ _ (List.pairwise_map.1 nfa.nodup_determinize_transitions)
  intro d d' hne t ht t' ht' heq
  rw [key_of_map_ofDfa ht, key_of_map_ofDfa ht', Prod.mk.injEq] at heq
  obtain ⟨hsource, hsymbol⟩ := heq
  exact hne (Prod.ext (State.inner.inj hsource) (Option.some.inj hsymbol))

theorem pairwise_leave (nfa : Nfa) :
    (nfa.determinize.accepting.map Transition.leave).Pairwise fun t t' ↦
      (t.source, t.input) ≠ (t'.source, t'.input) := by
  have haccepting : nfa.determinize.accepting.Nodup := by
    rw [Nfa.accepting_determinize]
    exact Nfa.nodup_determinize.filter _
  refine List.pairwise_map.2 (haccepting.imp fun hne heq ↦ ?_)
  exact hne (State.inner.inj (Prod.mk.inj heq).1)

/-- The derived automaton leaves a state in one way for each symbol, and in one way without reading. -/
theorem nodup_derivedTransitions (nfa : Nfa) (actions : ActionTable) :
    ((derivedTransitions nfa.determinize actions).map fun t ↦ (t.source, t.input)).Nodup := by
  refine List.pairwise_map.2 (List.pairwise_append.2
    ⟨List.pairwise_cons.2 ⟨fun t ht heq ↦ ?_, pairwise_ofDfa nfa actions⟩, pairwise_leave nfa,
      fun t ht t' ht' heq ↦ ?_⟩)
  · obtain ⟨d, -, hd⟩ := List.mem_filterMap.1 ht
    rw [key_of_map_ofDfa hd] at heq
    cases (Prod.mk.inj heq).1
  · obtain ⟨s, -, rfl⟩ := List.mem_map.1 ht'
    rcases List.mem_cons.1 ht with rfl | ht
    · cases (Prod.mk.inj heq).1
    · obtain ⟨d, -, hd⟩ := List.mem_filterMap.1 ht
      rw [key_of_map_ofDfa hd] at heq
      cases (Prod.mk.inj heq).2

def Configuration.silentRounds (config : Configuration) : Nat :=
  match config.state with
  | .start => 2 * config.input.length + 2
  | .inner _ => 1
  | .accept => 0

def Configuration.readingRounds (config : Configuration) : Nat :=
  match config.state with
  | .start => 0
  | .inner _ => 2 * config.input.length
  | .accept => 0

/-- A bound on the rounds that a search spends on a configuration and all that follow it. -/
def Configuration.rounds (config : Configuration) : Nat := config.silentRounds + config.readingRounds + 1

theorem rounds_start (input : List Char) (stack : List StackSymbol) :
    Configuration.rounds ⟨.start, input, stack⟩ = 2 * input.length + 3 := rfl

theorem rounds_inner (s : StateSet) (input : List Char) (stack : List StackSymbol) :
    Configuration.rounds ⟨.inner s, input, stack⟩ = 2 * input.length + 2 := by
  change 1 + 2 * input.length + 1 = 2 * input.length + 2
  omega

theorem rounds_accept (input : List Char) (stack : List StackSymbol) :
    Configuration.rounds ⟨.accept, input, stack⟩ = 1 := rfl

theorem rounds_le_silentRounds (ht : t ∈ derivedTransitions nfa.determinize actions)
    (hsource : t.source = config.state) (hinput : t.input = none) (hnext : t.next? config = some next) :
    next.rounds ≤ config.silentRounds := by
  obtain ⟨input, stack, hread, -, rfl⟩ := Transition.next?_eq_some_iff.1 hnext
  rw [hinput, takeFront?_none] at hread
  subst hread
  rcases mem_derivedTransitions_iff.1 ht with rfl | ⟨d, -, action, -, rfl⟩ | ⟨s, -, rfl⟩
  · have hstate : config.state = .start := hsource.symm
    rw [Transition.enter, rounds_inner, Configuration.silentRounds, hstate]
  · rw [Transition.input_ofDfa] at hinput
    cases hinput
  · have hstate : config.state = .inner s := hsource.symm
    rw [Transition.leave, rounds_accept, Configuration.silentRounds, hstate]

theorem rounds_le_readingRounds (ht : t ∈ derivedTransitions nfa.determinize actions)
    (hsource : t.source = config.state) (hinput : t.input ≠ none) (hnext : t.next? config = some next) :
    next.rounds ≤ config.readingRounds := by
  obtain ⟨input, stack, hread, -, rfl⟩ := Transition.next?_eq_some_iff.1 hnext
  rcases mem_derivedTransitions_iff.1 ht with rfl | ⟨d, -, action, -, rfl⟩ | ⟨s, -, rfl⟩
  · exact absurd rfl hinput
  · rw [Transition.input_ofDfa, takeFront?_some] at hread
    have hstate : config.state = .inner d.source := hsource.symm.trans (source_ofDfa d action)
    have hlength : config.readingRounds = 2 * input.length + 2 := by
      rw [Configuration.readingRounds, hstate, hread, List.length_cons, Nat.mul_succ]
    rw [hlength]
    cases action with
    | push | pop => exact (rounds_inner _ _ _).le
    | passThrough => exact Nat.succ_le_succ (Nat.zero_le _)
  · exact absurd rfl hinput

theorem sum_rounds_successors_lt (h : ofDfa nfa.determinize actions = .ok pda) (config : Configuration) :
    ((pda.table.successors config).map Configuration.rounds).sum < config.rounds := by
  obtain ⟨-, -, htransitions⟩ := ofDfa_eq_ok h
  have hnodup := nodup_derivedTransitions nfa actions
  rw [← htransitions] at hnodup
  have hsilent : ((pda.table.followers true config).map Configuration.rounds).sum ≤ config.silentRounds := by
    refine sum_followers_le hnodup fun t ht hsource hinput next hnext ↦ ?_
    rw [htransitions] at ht
    exact rounds_le_silentRounds ht hsource (Option.isNone_iff_eq_none.1 hinput) hnext
  have hreading : ((pda.table.followers false config).map Configuration.rounds).sum ≤
      config.readingRounds := by
    refine sum_followers_le hnodup fun t ht hsource hinput next hnext ↦ ?_
    rw [htransitions] at ht
    exact rounds_le_readingRounds ht hsource (fun hnone ↦ by simp [hnone] at hinput) hnext
  rw [sum_successors, Configuration.rounds]
  omega

theorem length_visits_derived_le (h : ofDfa nfa.determinize actions = .ok pda) (w : List Char) :
    (pda.visits w).length ≤ 2 * w.length + 3 := by
  have hlength := length_visits_le (sum_rounds_successors_lt h) [⟨pda.start, w, []⟩]
  rw [(ofDfa_eq_ok h).1, List.map_singleton, List.sum_singleton, rounds_start] at hlength
  rw [visits, (ofDfa_eq_ok h).1]
  exact hlength

/-- Above the bottom marker there are only markers, as many as the symbols read so far have pushed and not
popped. -/
def Configuration.Stacked (actions : ActionTable) (w : List Char) (config : Configuration) : Prop :=
  ∃ u k, w = u ++ config.input ∧ config.stack = List.replicate k .marker ++ [.bottom] ∧
    k + actions.count .pop u = actions.count .push u

theorem Reached.stacked (h : Reached nfa.determinize actions w config) :
    config = ⟨.start, w, []⟩ ∨ config.state ≠ .start ∧ config.Stacked actions w := by
  have hcount {u : List Char} {k : Nat} (hmarkers : actions.markers 0 u = some k) :
      k + actions.count .pop u = actions.count .push u := by
    obtain ⟨-, -, heven⟩ := ActionTable.markers_eq_some_iff.1 hmarkers
    omega
  cases h with
  | start => exact .inl rfl
  | inner hw hrun hmarkers => exact .inr ⟨nofun, _, _, hw, rfl, hcount hmarkers⟩
  | leave hw hrun hmarkers hs => exact .inr ⟨nofun, _, 0, hw, rfl, hcount hmarkers⟩
  | @passThrough u v c s s' hw hrun hnext hmarkers hc =>
    refine .inr ⟨nofun, u ++ [c], 0, by simp [hw], rfl, ?_⟩
    obtain ⟨hpush, hpop⟩ := ActionTable.count_append_singleton_passThrough hc u
    rw [hpush, hpop]
    exact hcount hmarkers

/-- A step never leads back to the start, and what it takes from the stack is no bottom marker, unless it puts
one there again. -/
theorem Step.keeps (h : ofDfa nfa.determinize actions = .ok pda) (hstep : pda.Step config next) :
    next.state ≠ .start ∧ (.bottom ∈ config.stack → .bottom ∈ next.stack) := by
  obtain ⟨t, ht, -, hnext⟩ := hstep
  obtain ⟨-, stack, -, hpop, rfl⟩ := Transition.next?_eq_some_iff.1 hnext
  rw [(ofDfa_eq_ok h).2.2] at ht
  rcases mem_derivedTransitions_iff.1 ht with rfl | ⟨d, -, action, -, rfl⟩ | ⟨s, -, rfl⟩
  · exact ⟨nofun, fun _ ↦ List.mem_cons_self⟩
  · cases action with
    | push =>
      obtain rfl := takeFront?_none.1 hpop
      exact ⟨nofun, List.mem_cons_of_mem _⟩
    | pop =>
      rw [takeFront?_some.1 hpop]
      exact ⟨nofun, fun hbottom ↦ (List.mem_cons.1 hbottom).resolve_left nofun⟩
    | passThrough => exact ⟨nofun, fun _ ↦ List.mem_cons_self⟩
  · exact ⟨nofun, fun _ ↦ List.mem_cons_self⟩

theorem successors_accept (h : ofDfa nfa.determinize actions = .ok pda) (hstate : config.state = .accept) :
    pda.table.successors config = [] := by
  refine List.eq_nil_iff_forall_not_mem.2 fun next hnext ↦ ?_
  obtain ⟨state, input, stack⟩ := config
  obtain rfl : state = .accept := hstate
  exact not_step_accept h (mem_successors_iff.1 hnext)

/-- A search ends after at most two rounds for each symbol and three more. Its stack holds the first
configuration, or others that keep the bottom marker under their markers; no state leads back to the start,
and none follows the accepting state. -/
theorem search_disciplined (nfa : Nfa) (actions : ActionTable) (pda : Pda)
    (h : ofDfa nfa.determinize actions = .ok pda) (w : List Char) :
    pda.Searching w (pda.visits w) [] ∧
      ∀ taken pending, pda.Searching w taken pending → taken.length ≤ 2 * w.length + 3 ∧
        ∀ config ∈ pending,
          (config = ⟨.start, w, []⟩ ∨ config.state ≠ .start ∧ config.Stacked actions w) ∧
          (config.state = .accept → pda.table.successors config = []) ∧
          ∀ next ∈ pda.table.successors config,
            next.state ≠ .start ∧ (.bottom ∈ config.stack → .bottom ∈ next.stack) := by
  refine ⟨searching_visits pda w, fun taken pending hsearching ↦ ⟨?_, fun config hconfig ↦ ?_⟩⟩
  · have hlength := length_visits_derived_le h w
    rw [hsearching.visits_eq, List.length_append] at hlength
    omega
  · have hreached := (mem_visits_iff_reached h).1 (hsearching.mem_visits hconfig)
    refine ⟨hreached.stacked, successors_accept h, fun next hnext ↦ ?_⟩
    exact Step.keeps h (mem_successors_iff.1 hnext)

theorem search_disciplined_loopAb :
    ∃ pda, ofDfa loopAb.determinize .balancedAb = .ok pda ∧
      pda.Searching ['a', 'a', 'b'] (pda.visits ['a', 'a', 'b']) [] ∧
        (pda.visits ['a', 'a', 'b']).length ≤ 9 := by
  obtain ⟨pda, hpda⟩ := exists_derived_loopAb
  obtain ⟨hend, hrounds⟩ := search_disciplined loopAb .balancedAb pda hpda ['a', 'a', 'b']
  obtain ⟨hlength, -⟩ := hrounds _ _ hend
  exact ⟨pda, hpda, hend, hlength⟩

end Derived

end RegexCompiler.Pda
