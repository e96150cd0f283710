import Mathlib.Data.List.Induction
import Mathlib.Data.List.Infix
import RegexCompiler.Proofs.Conversion

namespace RegexCompiler

namespace Token

variable {t : Token} {ts : List Token}

/-- No group is closed that has not been opened before. -/
def Nested (ts : List Token) : Prop := ∀ us, us <+: ts → us.count .groupClose ≤ us.count .groupOpen

theorem Nested.count_le (h : Nested ts) : ts.count .groupClose ≤ ts.count .groupOpen :=
  h ts (List.prefix_refl ts)

theorem nested_concat_iff :
    Nested (ts ++ [t]) ↔ Nested ts ∧ (ts ++ [t]).count .groupClose ≤ (ts ++ [t]).count .groupOpen := by
  constructor
  · intro h
    exact ⟨fun us hus ↦ h us (hus.trans (List.prefix_append ts [t])), h.count_le⟩
  · intro h us hus
    rcases List.prefix_concat_iff.1 hus with rfl | hus
    · exact h.2
    · exact h.1 us hus

end Token

open Token

namespace Conversion

variable {depth k : Nat} {t : Token} {ts : List Token}

theorem groupDepth_singleton :
    groupDepth depth [t] = some k ↔ depth + [t].count .groupOpen = k + [t].count .groupClose := by
  cases t with
  | literal | operator | groupOpen | invalid => simp [groupDepth]
  | groupClose => cases depth <;> simp [groupDepth]

/-- The groups that are open are those opened, less those closed. -/
theorem groupDepth_eq_some_iff :
    groupDepth 0 ts = some k ↔ Nested ts ∧ ts.count .groupOpen = k + ts.count .groupClose := by
  induction ts using List.reverseRecOn generalizing k with
  | nil => simp [groupDepth, Nested]
  | append_singleton ts t ih =>
    rw [groupDepth_append, Option.bind_eq_some_iff, nested_concat_iff]
    simp only [ih, groupDepth_singleton, List.count_append]
    constructor
    · rintro ⟨depth, ⟨hnested, hdepth⟩, hk⟩
      exact ⟨⟨hnested, by omega⟩, by omega⟩
    · rintro ⟨⟨hnested, hle⟩, hk⟩
      have hcount := hnested.count_le
      exact ⟨ts.count .groupOpen - ts.count .groupClose, ⟨hnested, by omega⟩, by omega⟩

theorem exists_of_groupDepth_eq_none (h : groupDepth depth ts = none) :
    ∃ before after, ts = before ++ .groupClose :: after ∧ groupDepth depth before = some 0 := by
  induction ts generalizing depth with
  | nil => cases h
  | cons t ts ih =>
    have hgo {depth' : Nat} (hnone : groupDepth depth' ts = none)
        (hdepth : ∀ us, groupDepth depth (t :: us) = groupDepth depth' us) :
        ∃ before after, t :: ts = before ++ .groupClose :: after ∧ groupDepth depth before = some 0 := by
      obtain ⟨before, after, rfl, hbefore⟩ := ih hnone
      exact ⟨t :: before, after, rfl, (hdepth before).trans hbefore⟩
    cases t with
    | literal | operator | groupOpen | invalid => exact hgo h fun _ ↦ rfl
    | groupClose =>
      cases depth with
      | zero => exact ⟨[], ts, rfl, rfl⟩
      | succ depth => exact hgo h fun _ ↦ rfl

end Conversion

namespace Token

open Conversion

variable {depth : Nat} {ts before rpn : List Token}

theorem toRpn_of_unopened (hinvalid : ∀ c, .invalid c ∉ before) (h : groupDepth 0 before = some 0)
    (after : List Token) :
    toRpn (before ++ .groupClose :: after) = .error (.unbalancedGroupClose before.length) := by
  obtain ⟨state, hrun, hlength⟩ := exists_run_of_groupDepth 0 {} hinvalid h
  have henclosing : state.enclosing = [] := List.length_eq_zero_iff.1 hlength
  have hstep : step before.length state .groupClose = .error (.unbalancedGroupClose before.length) := by
    rw [step, henclosing]
  rw [toRpn, Scan.run_append_of_none hrun, Nat.zero_add, Scan.run_cons_of_error hstep]

theorem toRpn_of_unclosed (hinvalid : ∀ c, .invalid c ∉ ts) (h : groupDepth 0 ts = some (depth + 1)) :
    toRpn ts = .error (.unclosedGroup (depth + 1)) := by
  obtain ⟨state, hrun, hlength⟩ := exists_run_of_groupDepth 0 {} hinvalid h
  rw [toRpn, hrun]
  dsimp only
  rw [finish]
  cases henclosing : state.enclosing with
  | nil =>
    rw [henclosing] at hlength
    cases hlength
  | cons outer enclosing =>
    rw [henclosing] at hlength
    rw [← hlength]

theorem invalid_not_mem_of_toRpn_eq_ok (h : toRpn ts = .ok rpn) (c : Char) : .invalid c ∉ ts := by
  intro hc
  obtain ⟨state, hrun, -⟩ := run_of_toRpn_eq_ok h
  obtain ⟨position, state', next, hstep⟩ := Scan.exists_step_of_mem hrun hc
  cases hstep

theorem exists_toRpn_iff :
    (∃ rpn, toRpn ts = .ok rpn) ↔ (∀ c, .invalid c ∉ ts) ∧ groupDepth 0 ts = some 0 := by
  constructor
  · intro h
    obtain ⟨rpn, hrpn⟩ := h
    exact ⟨invalid_not_mem_of_toRpn_eq_ok hrpn, groupDepth_of_toRpn_eq_ok hrpn⟩
  · intro h
    exact exists_toRpn_of_groupDepth h.1 h.2

/-- Valid tokens are converted if every group that is opened is closed after that, and no other ones. The
result has their literals and operators, each one once, and no groups. What comes before a literal in it
stood before that literal: literals keep their order, and operators come after the literals that they
stood behind. -/
theorem toRpn_reorders (ts : List Token) :
    ((∃ rpn, toRpn ts = .ok rpn) ↔
        (∀ c, .invalid c ∉ ts) ∧ Nested ts ∧ ts.count .groupOpen = ts.count .groupClose) ∧
      ∀ rpn, toRpn ts = .ok rpn → (∀ t ∈ rpn, t ≠ .groupOpen ∧ t ≠ .groupClose) ∧
        ∃ placed : List (Token × Nat), placed.map Prod.fst = rpn ∧
          placed.Perm (ts.zipIdx.filter fun x ↦ !x.1.isGroup) ∧
          placed.Pairwise fun earlier later ↦ later.1.isLiteral = true → earlier.2 < later.2 := by
  constructor
  · rw [exists_toRpn_iff, groupDepth_eq_some_iff, Nat.zero_add]
  · intro rpn h
    refine ⟨fun t ht ↦ ?_, exists_placed_of_toRpn_eq_ok h⟩
    have hgroup := (List.mem_filter.1 ((perm_of_toRpn_eq_ok h).mem_iff.1 ht)).2
    constructor
    · rintro rfl
      cases hgroup
    · rintro rfl
      cases hgroup

/-- The star of `a|(*b)` has no operand, and is written behind the `b` that it stands before. -/
theorem toRpn_reorders_dangling :
    toRpn [.literal 'a', .operator .alternation, .groupOpen, .operator .star, .literal 'b', .groupClose] =
        .ok [.literal 'a', .literal 'b', .operator .star, .operator .alternation] ∧
      ∃ placed : List (Token × Nat),
        placed.map Prod.fst = [.literal 'a', .literal 'b', .operator .star, .operator .alternation] ∧
          placed.Perm [(.literal 'a', 0), (.operator .alternation, 1), (.operator .star, 3),
            (.literal 'b', 4)] ∧
          placed.Pairwise fun earlier later ↦ later.1.isLiteral = true → earlier.2 < later.2 := by
  have hrpn : toRpn [.literal 'a', .operator .alternation, .groupOpen, .operator .star, .literal 'b',
      .groupClose] = .ok [.literal 'a', .literal 'b', .operator .star, .operator .alternation] := rfl
  obtain ⟨-, hplaced⟩ := toRpn_reorders
    [.literal 'a', .operator .alternation, .groupOpen, .operator .star, .literal 'b', .groupClose]
  exact ⟨hrpn, (hplaced _ hrpn).2⟩

end Token

end RegexCompiler
