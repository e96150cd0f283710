import Std.Data.HashSet

namespace RegexCompiler

/-- Nodes joined by moves. Every move leads to one of finitely many nodes, so a search ends. -/
structure Space (ν μ : Type) where
  moves : ν → List μ
  target : μ → ν
  bounded : ∃ bound : List ν, ∀ v, ∀ m ∈ moves v, target m ∈ bound

structure Visit (ν μ : Type) where
  node : ν
  moves : List μ
  fresh : List μ

namespace Space

variable {ν μ : Type} [DecidableEq ν] [Hashable ν]

def discover (target : μ → ν) : Std.HashSet ν → List μ → List μ × Std.HashSet ν
  | found, [] => ([], found)
  | found, m :: ms =>
    if target m ∈ found then discover target found ms
    else
      let (fresh, found) := discover target (found.insert (target m)) ms
      (m :: fresh, found)

theorem fresh_subset (target : μ → ν) (found : Std.HashSet ν) (ms : List μ) :
    (discover target found ms).1 ⊆ ms := by
  induction ms generalizing found with
  | nil => simp [discover]
  | cons m ms ih =>
    unfold discover
    split
    · exact List.subset_cons_of_subset m (ih found)
    · exact List.cons_subset_cons m (ih _)

theorem target_not_mem_of_mem_fresh {target : μ → ν} {found : Std.HashSet ν} {ms : List μ} {m : μ}
    (h : m ∈ (discover target found ms).1) : target m ∉ found := by
  induction ms generalizing found with
  | nil => simp [discover] at h
  | cons m' ms ih =>
    unfold discover at h
    split at h
    · exact ih h
    · rename_i hm'
      rcases List.mem_cons.1 h with rfl | h
      · exact hm'
      · exact fun hm ↦ ih h (Std.HashSet.mem_insert.2 (.inr hm))

theorem mem_found_iff {target : μ → ν} {found : Std.HashSet ν} {ms : List μ} {v : ν} :
    v ∈ (discover target found ms).2 ↔ v ∈ found ∨ ∃ m ∈ (discover target found ms).1, target m = v := by
  induction ms generalizing found with
  | nil => simp [discover]
  | cons m ms ih =>
    unfold discover
    split
    · exact ih
    · simp [ih, or_left_comm, or_assoc]

def visit (space : Space ν μ) (found : Std.HashSet ν) (v : ν) : Visit ν μ × Std.HashSet ν :=
  let moves := space.moves v
  let (fresh, found) := discover space.target found moves
  (⟨v, moves, fresh⟩, found)

def newest (space : Space ν μ) (visit : Visit ν μ) : List ν := (visit.fresh.map space.target).reverse

noncomputable def remaining (space : Space ν μ) (found : Std.HashSet ν) : Nat :=
  space.bounded.choose.countP (· ∉ found)

theorem remaining_le (space : Space ν μ) (found : Std.HashSet ν) (v : ν) :
    space.remaining (space.visit found v).2 ≤ space.remaining found :=
  List.countP_mono_left fun w _ ↦ by
    simpa using fun h hw ↦ h (mem_found_iff.2 (.inl hw))

theorem remaining_lt (space : Space ν μ) {found : Std.HashSet ν} {v : ν}
    (h : space.newest (space.visit found v).1 ≠ []) :
    space.remaining (space.visit found v).2 < space.remaining found := by
  obtain ⟨w, hw⟩ := List.exists_mem_of_ne_nil _ h
  obtain ⟨m, hm, rfl⟩ := List.mem_map.1 (List.mem_reverse.1 hw)
  have hout := target_not_mem_of_mem_fresh hm
  have hin : space.target m ∈ (space.visit found v).2 := mem_found_iff.2 (.inr ⟨m, hm, rfl⟩)
  obtain ⟨before, after, hsplit⟩ :=
    List.append_of_mem (space.bounded.choose_spec v m (fresh_subset _ _ _ hm))
  have hmono (l : List ν) : l.countP (· ∉ (space.visit found v).2) ≤ l.countP (· ∉ found) :=
    List.countP_mono_left fun w _ ↦ by simpa using fun h hw ↦ h (mem_found_iff.2 (.inl hw))
  have hb := hmono before
  have ha := hmono after
  unfold remaining
  rw [hsplit, List.countP_append, List.countP_append,
    List.countP_cons_of_neg (by rw [decide_eq_true_eq]; exact not_not_intro hin),
    List.countP_cons_of_pos (by rwa [decide_eq_true_eq])]
  omega

/-- Depth-first search from the `pending` nodes: the node discovered last is taken up first. A node is
discovered when a move leads to it that is not yet among the `found` ones, hence at most once. -/
def visits (space : Space ν μ) (found : Std.HashSet ν) : List ν → List (Visit ν μ)
  | [] => []
  | v :: rest =>
    let next := space.visit found v
    next.1 :: space.visits next.2 (space.newest next.1 ++ rest)
  termination_by pending => (space.remaining found, pending.length)
  decreasing_by
    by_cases h : space.newest (space.visit found v).1 = []
    · rw [h]
      rcases Nat.lt_or_eq_of_le (space.remaining_le found v) with hlt | heq
      · exact Prod.Lex.left _ _ hlt
      · rw [heq]
        exact Prod.Lex.right _ (by simp)
    · exact Prod.Lex.left _ _ (space.remaining_lt h)

def search (space : Space ν μ) (roots : List ν) : List (Visit ν μ) :=
  space.visits (.ofList roots) roots

def discovered (space : Space ν μ) (roots : List ν) (search : List (Visit ν μ)) : List ν :=
  roots ++ search.flatMap fun visit ↦ visit.fresh.map space.target

theorem mem_visits {space : Space ν μ} {found : Std.HashSet ν} {pending : List ν} {visit : Visit ν μ}
    (h : visit ∈ space.visits found pending) : ∃ found, visit = (space.visit found visit.node).1 := by
  induction found, pending using visits.induct space with
  | case1 found => simp [visits] at h
  | case2 found v rest next ih =>
    rw [visits] at h
    rcases List.mem_cons.1 h with rfl | h
    · exact ⟨found, rfl⟩
    · exact ih h

/-- Every node a search discovers is a root or the target of a move. -/
theorem mem_discovered {space : Space ν μ} {roots : List ν} {w : ν}
    (h : w ∈ space.discovered roots (space.search roots)) :
    w ∈ roots ∨ ∃ v, ∃ m ∈ space.moves v, space.target m = w := by
  refine (List.mem_append.1 h).imp_right fun h ↦ ?_
  obtain ⟨visit, hvisit, hw⟩ := List.mem_flatMap.1 h
  obtain ⟨m, hm, rfl⟩ := List.mem_map.1 hw
  obtain ⟨found, hfound⟩ := mem_visits hvisit
  refine ⟨visit.node, m, fresh_subset space.target found _ ?_, rfl⟩
  rw [hfound] at hm
  exact hm

end Space

end RegexCompiler
