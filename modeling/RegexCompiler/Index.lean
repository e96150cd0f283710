import Std.Data.HashMap

namespace RegexCompiler

structure Index {α κ : Type} [DecidableEq κ] [Hashable κ] (key : α → κ) (xs : List α) where
  entries : Std.HashMap κ (List α)
  getD_entries : ∀ k, entries.getD k [] = xs.filter fun x ↦ key x = k

namespace Index

variable {α κ : Type} [DecidableEq κ] [Hashable κ]

/-- Puts every element under its key. Those under one key keep their order. -/
def arrange (key : α → κ) (xs : List α) : Std.HashMap κ (List α) :=
  xs.foldr (fun x entries ↦ entries.insert (key x) (x :: entries.getD (key x) [])) ∅

theorem getD_arrange (key : α → κ) (xs : List α) (k : κ) :
    (arrange key xs).getD k [] = xs.filter fun x ↦ key x = k := by
  induction xs with
  | nil => simp [arrange]
  | cons x xs ih =>
    have hcons : arrange key (x :: xs) =
        (arrange key xs).insert (key x) (x :: (arrange key xs).getD (key x) []) := rfl
    rw [hcons, Std.HashMap.getD_insert]
    by_cases h : key x = k
    · subst h
      simpa using ih
    · simpa [h] using ih

def ofList (key : α → κ) (xs : List α) : Index key xs := ⟨arrange key xs, getD_arrange key xs⟩

variable {key : α → κ} {xs : List α}

def lookup (index : Index key xs) (k : κ) : List α := index.entries.getD k []

@[simp] theorem lookup_eq (index : Index key xs) (k : κ) : index.lookup k = xs.filter fun x ↦ key x = k :=
  index.getD_entries k

end Index

end RegexCompiler
