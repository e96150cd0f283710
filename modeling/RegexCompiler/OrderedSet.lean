namespace RegexCompiler

/-- A finite set, kept as its members in ascending order: equal sets are equal values. -/
structure OrderedSet (α : Type) [LT α] where
  toList : List α
  ascending : toList.Pairwise (· < ·)
deriving DecidableEq

namespace OrderedSet

variable {α : Type} [LT α]

instance : Membership α (OrderedSet α) := ⟨fun s x ↦ x ∈ s.toList⟩

instance [DecidableEq α] (x : α) (s : OrderedSet α) : Decidable (x ∈ s) :=
  inferInstanceAs (Decidable (x ∈ s.toList))

instance : EmptyCollection (OrderedSet α) := ⟨⟨[], .nil⟩⟩

def isEmpty (s : OrderedSet α) : Bool := s.toList.isEmpty

def size (s : OrderedSet α) : Nat := s.toList.length

@[simp] theorem mem_toList {x : α} {s : OrderedSet α} : x ∈ s.toList ↔ x ∈ s := Iff.rfl

@[simp] theorem not_mem_empty (x : α) : ¬ x ∈ (∅ : OrderedSet α) := List.not_mem_nil

instance [Hashable α] : Hashable (OrderedSet α) := ⟨fun s ↦ hash s.toList⟩

variable [DecidableLT α]

/-- Puts `x` before a list, unless the list already starts with it. The list holds nothing smaller. -/
def prepend (x : α) : List α → List α
  | [] => [x]
  | y :: ys => if x < y then x :: y :: ys else y :: ys

variable [LE α] [Std.IsLinearOrder α] [Std.LawfulOrderLT α]

theorem mem_prepend {x z : α} {ys : List α} (h : ∀ y ∈ ys, x ≤ y) : z ∈ prepend x ys ↔ z = x ∨ z ∈ ys := by
  cases ys with
  | nil => simp [prepend]
  | cons y ys =>
    dsimp only [prepend]
    split
    · simp
    · rename_i hxy
      obtain rfl : x = y := Std.le_antisymm (h y List.mem_cons_self) (Std.not_lt.1 hxy)
      simp

theorem pairwise_prepend {x : α} {ys : List α} (h : ∀ y ∈ ys, x ≤ y) (hys : ys.Pairwise (· < ·)) :
    (prepend x ys).Pairwise (· < ·) := by
  cases ys with
  | nil => simp [prepend]
  | cons y ys =>
    dsimp only [prepend]
    split
    · rename_i hxy
      refine List.pairwise_cons.2 ⟨fun z hz ↦ ?_, hys⟩
      rcases List.mem_cons.1 hz with rfl | hz
      · exact hxy
      · exact Std.lt_trans hxy ((List.pairwise_cons.1 hys).1 z hz)
    · exact hys

def dropRepeats (xs : List α) : List α := xs.foldr prepend []

theorem dropRepeats_spec {xs : List α} (h : xs.Pairwise (· ≤ ·)) :
    (∀ z, z ∈ dropRepeats xs ↔ z ∈ xs) ∧ (dropRepeats xs).Pairwise (· < ·) := by
  induction xs with
  | nil => simp [dropRepeats]
  | cons x xs ih =>
    obtain ⟨hx, hxs⟩ := List.pairwise_cons.1 h
    obtain ⟨hmem, hlt⟩ := ih hxs
    have hle : ∀ y ∈ dropRepeats xs, x ≤ y := fun y hy ↦ hx y ((hmem y).1 hy)
    exact ⟨fun z ↦ by rw [List.mem_cons, ← hmem]; exact mem_prepend hle, pairwise_prepend hle hlt⟩

theorem pairwise_sort (xs : List α) : (xs.mergeSort fun x y ↦ !decide (y < x)).Pairwise (· ≤ ·) := by
  refine (List.pairwise_mergeSort (fun x y z ↦ ?_) (fun x y ↦ ?_) xs).imp fun h ↦ ?_
  · simpa [Std.not_lt] using Std.le_trans
  · simpa [Std.not_lt] using Std.le_total
  · simpa [Std.not_lt] using h

def ofList (xs : List α) : OrderedSet α :=
  ⟨dropRepeats (xs.mergeSort fun x y ↦ !decide (y < x)), (dropRepeats_spec (pairwise_sort xs)).2⟩

@[simp] theorem mem_ofList {z : α} {xs : List α} : z ∈ ofList xs ↔ z ∈ xs :=
  ((dropRepeats_spec (pairwise_sort xs)).1 z).trans List.mem_mergeSort

def insert (x : α) (s : OrderedSet α) : OrderedSet α := ofList (x :: s.toList)

@[simp] theorem mem_insert {x z : α} {s : OrderedSet α} : z ∈ s.insert x ↔ z = x ∨ z ∈ s :=
  mem_ofList.trans List.mem_cons

omit [DecidableLT α] [Std.IsLinearOrder α] in
theorem nodup_toList (s : OrderedSet α) : s.toList.Nodup := by
  apply s.ascending.imp
  intro x y hlt heq
  rw [heq] at hlt
  exact Std.lt_irrefl hlt

omit [DecidableLT α] in
theorem eq_of_mem_iff {xs ys : List α} (hx : xs.Pairwise (· < ·)) (hy : ys.Pairwise (· < ·))
    (h : ∀ z, z ∈ xs ↔ z ∈ ys) : xs = ys := by
  induction xs generalizing ys with
  | nil => exact (List.eq_nil_iff_forall_not_mem.2 fun z hz ↦ by simpa using (h z).2 hz).symm
  | cons x xs ih =>
    cases ys with
    | nil => simpa using (h x).1 (by simp)
    | cons y ys =>
      obtain ⟨hx₁, hxs⟩ := List.pairwise_cons.1 hx
      obtain ⟨hy₁, hys⟩ := List.pairwise_cons.1 hy
      obtain rfl : x = y := by
        rcases List.mem_cons.1 ((h x).1 (by simp)) with hxy | hxy
        · exact hxy
        · rcases List.mem_cons.1 ((h y).2 (by simp)) with hyx | hyx
          · exact hyx.symm
          · exact absurd (Std.lt_trans (hx₁ y hyx) (hy₁ x hxy)) Std.lt_irrefl
      congr 1
      refine ih hxs hys fun z ↦ ⟨fun hz ↦ ?_, fun hz ↦ ?_⟩
      · rcases List.mem_cons.1 ((h z).1 (List.mem_cons_of_mem _ hz)) with rfl | hz'
        · exact absurd (hx₁ z hz) Std.lt_irrefl
        · exact hz'
      · rcases List.mem_cons.1 ((h z).2 (List.mem_cons_of_mem _ hz)) with rfl | hz'
        · exact absurd (hy₁ z hz) Std.lt_irrefl
        · exact hz'

omit [DecidableLT α] in
@[ext] theorem ext {s t : OrderedSet α} (h : ∀ x, x ∈ s ↔ x ∈ t) : s = t := by
  cases s
  cases t
  congr 1
  exact eq_of_mem_iff ‹_› ‹_› h

def subsets : List α → List (OrderedSet α)
  | [] => [∅]
  | x :: xs => subsets xs ++ (subsets xs).map (insert x)

theorem mem_subsets [DecidableEq α] {s : OrderedSet α} {xs : List α} (h : ∀ x ∈ s, x ∈ xs) :
    s ∈ subsets xs := by
  induction xs generalizing s with
  | nil =>
    refine List.mem_singleton.2 (ext fun x ↦ ?_)
    simpa using fun hx ↦ List.not_mem_nil (h x hx)
  | cons x xs ih =>
    unfold subsets
    by_cases hx : x ∈ s
    · refine List.mem_append_right _ (List.mem_map.2 ⟨ofList (s.toList.filter (· ≠ x)), ih ?_, ?_⟩)
      · intro z hz
        simp only [mem_ofList, List.mem_filter, mem_toList, decide_eq_true_eq] at hz
        exact (List.mem_cons.1 (h z hz.1)).resolve_left hz.2
      · ext z
        by_cases hz : z = x <;> simp [hz, hx]
    · refine List.mem_append_left _ (ih fun z hz ↦ ?_)
      exact (List.mem_cons.1 (h z hz)).resolve_left fun hzx ↦ hx (hzx ▸ hz)

end OrderedSet

end RegexCompiler
