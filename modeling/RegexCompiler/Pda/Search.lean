import RegexCompiler.Index
import RegexCompiler.Pda.Basic

namespace RegexCompiler.Pda

structure Configuration where
  state : State
  input : List Char
  stack : List StackSymbol
deriving DecidableEq

def takeFront? {α : Type} [DecidableEq α] : Option α → List α → Option (List α)
  | none, xs => some xs
  | some _, [] => none
  | some x, y :: ys => if x = y then some ys else none

def Transition.next? (t : Transition) (config : Configuration) : Option Configuration :=
  match takeFront? t.input config.input, takeFront? t.pop config.stack with
  | some input, some stack => some ⟨t.target, input, t.push.toList ++ stack⟩
  | _, _ => none

def accepted (pda : Pda) (config : Configuration) : Bool :=
  pda.isAccepting config.state && config.input.isEmpty

def Configuration.reach (config : Configuration) : Nat := 3 * config.input.length + config.state.rank

theorem length_of_takeFront? {x : Char} {xs ys : List Char} (h : takeFront? (some x) xs = some ys) :
    ys.length < xs.length := by
  cases xs with
  | nil => cases h
  | cons y ys' =>
    simp only [takeFront?] at h
    split at h <;> simp_all

theorem reach_lt_of_next? {pda : Pda} {t : Transition} {config next : Configuration}
    (ht : t ∈ pda.transitions) (hsource : t.source = config.state) (hnext : t.next? config = some next) :
    next.reach < config.reach := by
  unfold Transition.next? at hnext
  split at hnext
  · rename_i input stack hinput hstack
    cases hnext
    have hdescends := pda.descends t ht
    unfold Configuration.reach
    cases hread : t.input with
    | none =>
      rw [hread] at hinput
      cases hinput
      have := hdescends hread
      rw [hsource] at this
      simpa using this
    | some c =>
      rw [hread] at hinput
      have hlength := length_of_takeFront? hinput
      have htarget : t.target.rank ≤ 2 := by cases t.target <;> simp [State.rank]
      dsimp only
      omega
  · cases hnext

abbrev Table (pda : Pda) := Index Transition.source pda.transitions

def table (pda : Pda) : pda.Table := .ofList Transition.source pda.transitions

namespace Table

variable {pda : Pda}

def successors (table : pda.Table) (config : Configuration) : List Configuration :=
  (table.lookup config.state).filterMap fun t ↦ t.next? config

theorem reach_lt_of_mem_successors {table : pda.Table} {config next : Configuration}
    (h : next ∈ table.successors config) : next.reach < config.reach := by
  obtain ⟨t, ht, hnext⟩ := List.mem_filterMap.1 h
  rw [Index.lookup_eq, List.mem_filter, decide_eq_true_eq] at ht
  exact reach_lt_of_next? ht.1 ht.2 hnext

theorem length_successors_le (table : pda.Table) (config : Configuration) :
    (table.successors config).length ≤ pda.transitions.length := by
  refine Nat.le_trans (List.length_filterMap_le _ _) ?_
  rw [Index.lookup_eq]
  exact List.length_filter_le _ _

end Table

/-- A bound on the configurations that can follow one of a given reach, itself included, when each has at
most `branching` successors. -/
def weight (branching : Nat) : Nat → Nat
  | 0 => 1
  | reach + 1 => branching * weight branching reach + 1

theorem weight_mono (branching : Nat) {m n : Nat} (h : m ≤ n) : weight branching m ≤ weight branching n := by
  have hstep (k : Nat) : weight branching k ≤ weight branching (k + 1) := by
    induction k with
    | zero => simp [weight]
    | succ k ih => exact Nat.succ_le_succ (Nat.mul_le_mul_left _ ih)
  induction h with
  | refl => exact Nat.le_refl _
  | step _ ih => exact Nat.le_trans ih (hstep _)

def load (branching : Nat) : List Configuration → Nat
  | [] => 0
  | config :: rest => weight branching config.reach + load branching rest

theorem load_append (branching : Nat) (configs configs' : List Configuration) :
    load branching (configs ++ configs') = load branching configs + load branching configs' := by
  induction configs with
  | nil => simp [load]
  | cons config configs ih => simp only [List.cons_append, load, ih, Nat.add_assoc]

theorem load_le {branching reach : Nat} {configs : List Configuration}
    (h : ∀ config ∈ configs, config.reach ≤ reach) :
    load branching configs ≤ configs.length * weight branching reach := by
  induction configs with
  | nil => simp [load]
  | cons config configs ih =>
    have hfirst := weight_mono branching (h config List.mem_cons_self)
    have hrest := ih fun config hconfig ↦ h config (List.mem_cons_of_mem _ hconfig)
    rw [load, List.length_cons, Nat.add_one_mul]
    omega

namespace Table

variable {pda : Pda}

theorem load_successors_lt (table : pda.Table) (config : Configuration) :
    load pda.transitions.length (table.successors config).reverse <
      weight pda.transitions.length config.reach := by
  cases hreach : config.reach with
  | zero =>
    have hnone : table.successors config = [] := List.eq_nil_iff_forall_not_mem.2 fun next hnext ↦ by
      have := reach_lt_of_mem_successors hnext
      omega
    simp [hnone, load, weight]
  | succ reach =>
    refine Nat.lt_succ_of_le (Nat.le_trans (load_le fun next hnext ↦ ?_) (Nat.mul_le_mul_right _ ?_))
    · have := reach_lt_of_mem_successors (List.mem_reverse.1 hnext)
      omega
    · rw [List.length_reverse]
      exact table.length_successors_le config

/-- Depth-first search from the `pending` configurations: the last successor is taken up first. -/
def visits (table : pda.Table) : List Configuration → List Configuration
  | [] => []
  | config :: rest => config :: table.visits ((table.successors config).reverse ++ rest)
  termination_by pending => load pda.transitions.length pending
  decreasing_by
    rw [load_append, load]
    exact Nat.add_lt_add_right (table.load_successors_lt config) _

end Table

def visits (pda : Pda) (w : List Char) : List Configuration := pda.table.visits [⟨pda.start, w, []⟩]

def accepts (pda : Pda) (w : List Char) : Bool := (pda.visits w).any pda.accepted

end RegexCompiler.Pda
