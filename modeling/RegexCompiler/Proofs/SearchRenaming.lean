import Mathlib.Logic.Function.Basic
import RegexCompiler.Search

namespace RegexCompiler

variable {ν ν' μ μ' : Type}

def Visit.map (f : ν → ν') (g : μ → μ') (visit : Visit ν μ) : Visit ν' μ' :=
  ⟨f visit.node, visit.moves.map g, visit.fresh.map g⟩

namespace Space

/-- The second space has the moves of the first one, in the same order and under other names. -/
structure Renames (space : Space ν μ) (space' : Space ν' μ') (f : ν → ν') (g : μ → μ') : Prop where
  injective : Function.Injective f
  moves : ∀ v, space'.moves (f v) = (space.moves v).map g
  target : ∀ m, space'.target (g m) = f (space.target m)

namespace Renames

variable {space : Space ν μ} {space' : Space ν' μ'} {f : ν → ν'} {g : μ → μ'}

theorem newest_eq (h : space.Renames space' f g) (visit : Visit ν μ) :
    space'.newest (visit.map f g) = (space.newest visit).map f := by
  simp only [newest, Visit.map, List.map_map, List.map_reverse, Function.comp_def, h.target]

theorem discovered_eq (h : space.Renames space' f g) (roots : List ν) (search : List (Visit ν μ)) :
    space'.discovered (roots.map f) (search.map (.map f g)) = (space.discovered roots search).map f := by
  simp only [discovered, List.map_append, List.flatMap_map, List.map_flatMap, Visit.map, List.map_map,
    Function.comp_def, h.target]

variable [DecidableEq ν] [Hashable ν] [DecidableEq ν'] [Hashable ν']
variable {found : Std.HashSet ν} {found' : Std.HashSet ν'}

theorem discover_eq (h : space.Renames space' f g) (hfound : ∀ v, f v ∈ found' ↔ v ∈ found)
    (ms : List μ) :
    (discover space'.target found' (ms.map g)).1 = (discover space.target found ms).1.map g := by
  induction ms generalizing found found' with
  | nil => simp [discover]
  | cons m ms ih =>
    have htarget : space'.target (g m) ∈ found' ↔ space.target m ∈ found := by
      rw [h.target, hfound]
    rw [List.map_cons, discover, discover]
    by_cases hm : space.target m ∈ found
    · rw [if_pos hm, if_pos (htarget.2 hm)]
      exact ih hfound
    · have hinsert : ∀ v, f v ∈ found'.insert (space'.target (g m)) ↔
          v ∈ found.insert (space.target m) := by
        intro v
        simp only [Std.HashSet.mem_insert, beq_iff_eq, h.target, h.injective.eq_iff, hfound]
      rw [if_neg hm, if_neg (mt htarget.1 hm)]
      exact congrArg (g m :: ·) (ih hinsert)

theorem mem_discover_iff (h : space.Renames space' f g) (hfound : ∀ v, f v ∈ found' ↔ v ∈ found)
    (ms : List μ) (v : ν) :
    f v ∈ (discover space'.target found' (ms.map g)).2 ↔ v ∈ (discover space.target found ms).2 := by
  rw [mem_found_iff, mem_found_iff, h.discover_eq hfound, hfound]
  simp only [List.mem_map, exists_exists_and_eq_and, h.target, h.injective.eq_iff]

theorem visit_eq (h : space.Renames space' f g) (hfound : ∀ v, f v ∈ found' ↔ v ∈ found) (v : ν) :
    (space'.visit found' (f v)).1 = (space.visit found v).1.map f g := by
  simp only [visit, Visit.map, h.moves, h.discover_eq hfound]

theorem mem_visit_iff (h : space.Renames space' f g) (hfound : ∀ v, f v ∈ found' ↔ v ∈ found)
    (v w : ν) : f w ∈ (space'.visit found' (f v)).2 ↔ w ∈ (space.visit found v).2 := by
  simp only [visit, h.moves, h.mem_discover_iff hfound]

/-- Searches that have found the same nodes go on alike. -/
theorem visits_eq (h : space.Renames space' f g) (found' : Std.HashSet ν')
    (hfound : ∀ v, f v ∈ found' ↔ v ∈ found) (pending : List ν) :
    space'.visits found' (pending.map f) = (space.visits found pending).map (.map f g) := by
  induction found, pending using visits.induct space generalizing found' with
  | case1 found => simp [visits]
  | case2 found v rest next ih =>
    have hnext : (space'.visit found' (f v)).1 = next.1.map f g := h.visit_eq hfound v
    have hrest := ih (space'.visit found' (f v)).2 (h.mem_visit_iff hfound v)
    rw [List.map_append, ← h.newest_eq] at hrest
    rw [List.map_cons, visits, visits, List.map_cons, hnext]
    exact congrArg (next.1.map f g :: ·) hrest

theorem search_eq (h : space.Renames space' f g) (roots : List ν) :
    space'.search (roots.map f) = (space.search roots).map (.map f g) := by
  apply h.visits_eq
  intro v
  simp only [Std.HashSet.mem_ofList, List.contains_iff_mem, List.mem_map, h.injective.eq_iff,
    exists_eq_right]

end Renames

end Space

end RegexCompiler
