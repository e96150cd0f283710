import Mathlib.Data.List.Nodup
import Mathlib.Logic.Relation
import RegexCompiler.Search

namespace RegexCompiler.Space

open Relation

variable {ν μ : Type} [DecidableEq ν] [Hashable ν] {space : Space ν μ}

def Adjacent (space : Space ν μ) (v w : ν) : Prop := ∃ m ∈ space.moves v, space.target m = w

def discoveries (space : Space ν μ) (search : List (Visit ν μ)) : List ν :=
  search.flatMap fun visit ↦ visit.fresh.map space.target

theorem target_mem_found {target : μ → ν} {found : Std.HashSet ν} {ms : List μ} {m : μ} (h : m ∈ ms) :
    target m ∈ (discover target found ms).2 := by
  induction ms generalizing found with
  | nil => cases h
  | cons m' ms ih =>
    unfold discover
    split
    · rename_i hm'
      rcases List.mem_cons.1 h with rfl | h
      · exact mem_found_iff.2 (.inl hm')
      · exact ih h
    · rcases List.mem_cons.1 h with rfl | h
      · exact mem_found_iff.2 (.inl (Std.HashSet.mem_insert.2 (.inl (by simp))))
      · exact ih h

theorem nodup_fresh (target : μ → ν) (found : Std.HashSet ν) (ms : List μ) :
    ((discover target found ms).1.map target).Nodup := by
  induction ms generalizing found with
  | nil => simp [discover]
  | cons m ms ih =>
    unfold discover
    split
    · exact ih found
    · refine List.nodup_cons.2 ⟨fun hm ↦ ?_, ih _⟩
      obtain ⟨m', hm', he⟩ := List.mem_map.1 hm
      have hout := target_not_mem_of_mem_fresh hm'
      rw [he] at hout
      exact hout (Std.HashSet.mem_insert.2 (.inl (by simp)))

theorem mem_visit_found_iff {found : Std.HashSet ν} {v w : ν} :
    w ∈ (space.visit found v).2 ↔ w ∈ found ∨ w ∈ (space.visit found v).1.fresh.map space.target := by
  rw [List.mem_map]
  exact mem_found_iff

omit [DecidableEq ν] [Hashable ν] in
theorem discoveries_cons (visit : Visit ν μ) (search : List (Visit ν μ)) :
    space.discoveries (visit :: search) = visit.fresh.map space.target ++ space.discoveries search :=
  List.flatMap_cons

/-- The nodes taken up are those that were pending and those discovered, each once. -/
theorem nodes_visits (found : Std.HashSet ν) (pending : List ν) :
    ((space.visits found pending).map Visit.node).Perm
      (pending ++ space.discoveries (space.visits found pending)) := by
  induction found, pending using visits.induct space with
  | case1 found => simp [visits, discoveries]
  | case2 found v rest next ih =>
    rw [visits, List.map_cons, discoveries_cons, List.cons_append]
    refine List.Perm.cons v (ih.trans ?_)
    have hnew : (space.newest next.1).Perm (next.1.fresh.map space.target) := List.reverse_perm _
    have hswap : (space.newest next.1 ++ rest).Perm (rest ++ next.1.fresh.map space.target) :=
      (hnew.append_right rest).trans List.perm_append_comm
    rw [← List.append_assoc rest]
    exact hswap.append_right _

theorem nodup_discoveries (space : Space ν μ) (found : Std.HashSet ν) (pending : List ν) :
    (space.discoveries (space.visits found pending)).Nodup ∧
      ∀ w ∈ space.discoveries (space.visits found pending), w ∉ found := by
  induction found, pending using visits.induct space with
  | case1 found => simp [visits, discoveries]
  | case2 found v rest next ih =>
    rw [visits, discoveries_cons]
    obtain ⟨hnodup, hout⟩ := ih
    have hfound (w : ν) (hw : w ∈ space.discoveries (space.visits next.2 (space.newest next.1 ++ rest))) :
        w ∉ found ∧ w ∉ next.1.fresh.map space.target :=
      not_or.1 fun h ↦ hout w hw (mem_visit_found_iff.2 h)
    constructor
    · refine List.Nodup.append (nodup_fresh _ _ _) hnodup fun w hfresh hw ↦ ?_
      exact (hfound w hw).2 hfresh
    · intro w hw
      rcases List.mem_append.1 hw with hw | hw
      · obtain ⟨m, hm, rfl⟩ := List.mem_map.1 hw
        exact target_not_mem_of_mem_fresh hm
      · exact (hfound w hw).1

theorem moves_of_mem_visits {found : Std.HashSet ν} {pending : List ν} {visit : Visit ν μ}
    (h : visit ∈ space.visits found pending) : visit.moves = space.moves visit.node := by
  obtain ⟨found', hvisit⟩ := mem_visits h
  exact congrArg Visit.moves hvisit

/-- No move of a visited node leads out of what was found at first or discovered later. -/
theorem adjacent_mem_discoveries {found : Std.HashSet ν} {pending : List ν} {visit : Visit ν μ} {w : ν}
    (h : visit ∈ space.visits found pending) (hw : space.Adjacent visit.node w) :
    w ∈ found ∨ w ∈ space.discoveries (space.visits found pending) := by
  induction found, pending using visits.induct space with
  | case1 found => simp [visits] at h
  | case2 found v rest next ih =>
    rw [visits] at h ⊢
    rw [discoveries_cons, List.mem_append, ← or_assoc, ← mem_visit_found_iff]
    rcases List.mem_cons.1 h with rfl | h
    · obtain ⟨m, hm, rfl⟩ := hw
      exact .inl (target_mem_found hm)
    · exact ih h

theorem reachable_of_mem_discoveries {found : Std.HashSet ν} {pending : List ν} {w : ν}
    (h : w ∈ space.discoveries (space.visits found pending)) :
    ∃ v ∈ pending, ReflTransGen space.Adjacent v w := by
  induction found, pending using visits.induct space with
  | case1 found => simp [visits, discoveries] at h
  | case2 found v rest next ih =>
    have hfresh (u : ν) (hu : u ∈ next.1.fresh.map space.target) : space.Adjacent v u := by
      obtain ⟨m, hm, rfl⟩ := List.mem_map.1 hu
      exact ⟨m, fresh_subset _ _ _ hm, rfl⟩
    rw [visits, discoveries_cons] at h
    rcases List.mem_append.1 h with h | h
    · exact ⟨v, List.mem_cons_self, .single (hfresh w h)⟩
    · obtain ⟨u, hu, hreach⟩ := ih h
      rcases List.mem_append.1 hu with hu | hu
      · exact ⟨v, List.mem_cons_self, .head (hfresh u (List.mem_reverse.1 hu)) hreach⟩
      · exact ⟨u, List.mem_cons_of_mem v hu, hreach⟩

section Search

variable (space) (roots : List ν)

theorem nodes_search :
    ((space.search roots).map Visit.node).Perm (space.discovered roots (space.search roots)) :=
  nodes_visits _ _

/-- A search takes up every node that it discovers once. -/
theorem length_search :
    (space.search roots).length = (space.discovered roots (space.search roots)).length := by
  rw [← (nodes_search space roots).length_eq, List.length_map]

theorem head?_search : ((space.search roots).map Visit.node).head? = roots.head? := by
  cases roots with
  | nil => simp [search, visits]
  | cons v rest =>
    rw [search, visits]
    rfl

theorem nodup_discovered (h : roots.Nodup) : (space.discovered roots (space.search roots)).Nodup := by
  obtain ⟨hnodup, hout⟩ := space.nodup_discoveries (.ofList roots) roots
  refine List.Nodup.append h hnodup fun w hroot hw ↦ hout w hw ?_
  simpa using hroot

variable {space roots}

/-- A search discovers exactly the nodes that can be reached from its roots. -/
theorem mem_discovered_iff {w : ν} :
    w ∈ space.discovered roots (space.search roots) ↔
      ∃ v ∈ roots, ReflTransGen space.Adjacent v w := by
  constructor
  · intro h
    rcases List.mem_append.1 h with h | h
    · exact ⟨w, h, .refl⟩
    · exact reachable_of_mem_discoveries h
  · rintro ⟨v, hv, hreach⟩
    induction hreach with
    | refl => exact List.mem_append_left _ hv
    | @tail u w _ hadjacent ih =>
      obtain ⟨visit, hvisit, rfl⟩ := List.mem_map.1 ((space.nodes_search roots).mem_iff.2 ih)
      rcases adjacent_mem_discoveries hvisit hadjacent with h | h
      · exact List.mem_append_left _ (by simpa using h)
      · exact List.mem_append_right _ h

end Search

end RegexCompiler.Space
