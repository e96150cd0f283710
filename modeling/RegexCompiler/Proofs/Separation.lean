import Mathlib.Data.List.Chain
import RegexCompiler.Proofs.Concatenation

namespace RegexCompiler.Token

variable {ts : List Token}

/-- Whether no operand starts right where another one has ended. -/
def Separated (ts : List Token) : Prop := ts.IsChain fun left right ↦ left.joins right = false

theorem Separated.cons {left right : Token} (h : Separated (right :: ts)) (hjoins : left.joins right = false) :
    Separated (left :: right :: ts) :=
  List.isChain_cons_cons.2 ⟨hjoins, h⟩

theorem separated_insertConcatenation (ts : List Token) : Separated (insertConcatenation ts) := by
  induction ts with
  | nil => exact .nil
  | cons left ts ih =>
    cases ts with
    | nil => exact .singleton left
    | cons right ts =>
      rw [insertConcatenation_cons right] at ih
      rw [insertConcatenation_cons left, insertConcatenation_cons right, seam_singleton_cons]
      split
      · have hstart : left.joins (.operator .concat) = false := Bool.and_false left.endsOperand
        exact (ih.cons rfl).cons hstart
      · rename_i hjoins
        exact ih.cons (Bool.eq_false_iff.2 hjoins)

/-- Where operands are kept apart nothing is left implicit. -/
theorem Separated.insertConcatenation_eq (h : Separated ts) : insertConcatenation ts = ts := by
  induction ts with
  | nil => rfl
  | cons left ts ih =>
    cases ts with
    | nil => rfl
    | cons right ts =>
      obtain ⟨hjoins, hrest⟩ := List.isChain_cons_cons.1 h
      rw [insertConcatenation_cons, seam_singleton_cons, hjoins, ih hrest]
      rfl

theorem sublist_insertConcatenation (ts : List Token) : ts.Sublist (insertConcatenation ts) := by
  induction ts with
  | nil => exact .slnil
  | cons t ts ih =>
    rw [insertConcatenation_cons]
    exact (ih.trans (List.sublist_append_right _ _)).cons_cons t

theorem filter_seam (xs ys : List Token) : (seam xs ys).filter (· ≠ .operator .concat) = [] := by
  apply List.filter_eq_nil_iff.2
  intro t ht
  simp [eq_concat_of_mem_seam ht]

theorem filter_insertConcatenation (ts : List Token) :
    (insertConcatenation ts).filter (· ≠ .operator .concat) = ts.filter (· ≠ .operator .concat) := by
  induction ts with
  | nil => rfl
  | cons t ts ih =>
    rw [insertConcatenation_cons, List.filter_cons, List.filter_cons, List.filter_append, filter_seam, ih,
      List.nil_append]

/-- Once concatenation is made explicit none is left implicit, and doing it again changes nothing. Only
concatenations are added: between two sequences one, if the first ends an operand and the second starts
one, and else none. -/
theorem insertConcatenation_separates (xs ys : List Token) :
    insertConcatenation (insertConcatenation xs) = insertConcatenation xs ∧
      (insertConcatenation xs).IsChain (fun left right ↦
        ¬ (left.endsOperand = true ∧ right.startsOperand = true)) ∧
      xs.Sublist (insertConcatenation xs) ∧
      (insertConcatenation xs).filter (· ≠ .operator .concat) = xs.filter (· ≠ .operator .concat) ∧
      insertConcatenation (xs ++ ys) = insertConcatenation xs ++
        (if xs.getLast?.any endsOperand && ys.head?.any startsOperand then [.operator .concat] else []) ++
          insertConcatenation ys := by
  have hseparated := separated_insertConcatenation xs
  refine ⟨hseparated.insertConcatenation_eq, hseparated.imp fun left right hjoins ↦ ?_,
    sublist_insertConcatenation xs, filter_insertConcatenation xs, ?_⟩
  · rwa [← Bool.and_eq_true, Bool.not_eq_true]
  · rw [insertConcatenation_append_eq, seam_eq]

-- A concatenation that is explicit already is taken as it is, also where it lacks an operand.
example : insertConcatenation [.operator .concat, .literal 'a', .operator .concat, .groupOpen, .literal 'b'] =
    [.operator .concat, .literal 'a', .operator .concat, .groupOpen, .literal 'b'] := by decide

end RegexCompiler.Token
