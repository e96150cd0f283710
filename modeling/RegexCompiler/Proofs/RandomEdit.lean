import RegexCompiler.Proofs.RandomExpr
import RegexCompiler.Random.Edit

namespace RegexCompiler

theorem Draw.returns_range {γ : Type} [RandomSource γ] {lo hi : Nat} (h : lo < hi) :
    Returns (range lo hi : Draw γ Nat) fun n ↦ lo ≤ n ∧ n < hi := by
  apply (returns_below (Nat.sub_pos_of_lt h)).bind
  intro n _
  have hn := n.isLt
  apply returns_pure
  omega

namespace Edit

/-- What an edit can make of a source: one more character in it, or a part of it less. -/
inductive Yields : List Char → Edit → List Char → Prop
  | insert (before after : List Char) {c : Char} (h : c ∈ insertable) :
    Yields (before ++ after) insertOperator (before ++ c :: after)
  | erase (before middle after : List Char) :
    Yields (before ++ middle ++ after) eraseRange (before ++ after)

variable {γ : Type} {source : List Char} {position first last : Nat} {c : Char}

theorem returns_insertAt (hposition : position ≤ source.length) (hc : c ∈ insertable) :
    Draw.Returns (insertAt source position c : Draw γ _) (Yields source insertOperator) := by
  rw [insertAt, if_pos hposition]
  have hyields := Yields.insert (source.take position) (source.drop position) hc
  rw [List.take_append_drop] at hyields
  exact Draw.returns_pure hyields

theorem returns_eraseBetween (hfirst : first ≤ last) (hlast : last ≤ source.length) :
    Draw.Returns (eraseBetween source first last : Draw γ _) (Yields source eraseRange) := by
  rw [eraseBetween, if_pos ⟨hfirst.trans hlast, hlast⟩]
  have hbefore : source.take first ++ (source.take last).drop first = source.take last := by
    have hsplit := List.take_append_drop first (source.take last)
    rwa [List.take_take, Nat.min_eq_left hfirst] at hsplit
  have hyields := Yields.erase (source.take first) ((source.take last).drop first) (source.drop last)
  rw [hbefore, List.take_append_drop] at hyields
  exact Draw.returns_pure hyields

variable [RandomSource γ]

theorem returns_apply (edit : Edit) (source : List Char) :
    Draw.Returns (apply source edit : Draw γ _) (Yields source edit) := by
  cases edit with
  | insertOperator =>
    rw [apply]
    apply (Draw.returns_range (Nat.succ_pos _)).bind
    intro position hposition
    apply (Draw.returns_sample (by decide)).bind
    intro c hc
    exact returns_insertAt (Nat.le_of_lt_succ hposition.2) hc
  | eraseRange =>
    rw [apply]
    apply (Draw.returns_range (Nat.succ_pos _)).bind
    intro first hfirst
    -- The second position is drawn from the first one on: there is always one left.
    apply (Draw.returns_range hfirst.2).bind
    intro last hlast
    exact returns_eraseBetween hlast.1 (Nat.le_of_lt_succ hlast.2)

theorem returns_applyAny {edits : List Edit} (hne : edits ≠ []) (source : List Char) :
    Draw.Returns (applyAny edits source : Draw γ _) fun edited ↦ ∃ edit, Yields source edit edited := by
  apply (Draw.returns_sample hne).bind
  intro edit _ state
  obtain ⟨edited, rest, hrun, hyields⟩ := returns_apply edit source state
  exact ⟨edited, rest, hrun, edit, hyields⟩

end Edit

end RegexCompiler
