import Mathlib.Data.List.Infix
import RegexCompiler.Pda.Action

namespace RegexCompiler.ActionTable

variable {actions : ActionTable} {c : Char} {m n k : Nat} {u v w : List Char}

def count (actions : ActionTable) (action : StackAction) (w : List Char) : Nat :=
  w.countP fun c ↦ actions.get? c = some action

@[simp] theorem count_nil (action : StackAction) : actions.count action [] = 0 := rfl

theorem count_cons_push (h : actions.get? c = some .push) (w : List Char) :
    actions.count .push (c :: w) = actions.count .push w + 1 ∧
      actions.count .pop (c :: w) = actions.count .pop w := by
  simp [count, h]

theorem count_cons_pop (h : actions.get? c = some .pop) (w : List Char) :
    actions.count .push (c :: w) = actions.count .push w ∧
      actions.count .pop (c :: w) = actions.count .pop w + 1 := by
  simp [count, h]

theorem count_append_singleton_passThrough (h : actions.get? c = some .passThrough) (u : List Char) :
    actions.count .push (u ++ [c]) = actions.count .push u ∧
      actions.count .pop (u ++ [c]) = actions.count .pop u := by
  simp [count, List.countP_append, h]

theorem prefixes_cons_push (h : actions.get? c = some .push) :
    (∀ u, u <+: c :: w → actions.count .pop u ≤ n + actions.count .push u) ↔
      ∀ u, u <+: w → actions.count .pop u ≤ n + 1 + actions.count .push u := by
  constructor
  · intro hprefixes u hu
    have hle := hprefixes (c :: u) (List.cons_prefix_cons.2 ⟨rfl, hu⟩)
    obtain ⟨hpush, hpop⟩ := count_cons_push h u
    omega
  · intro hprefixes u hu
    rcases List.prefix_cons_iff.1 hu with rfl | ⟨v, rfl, hv⟩
    · simp
    · have hle := hprefixes v hv
      obtain ⟨hpush, hpop⟩ := count_cons_push h v
      omega

theorem prefixes_cons_pop (h : actions.get? c = some .pop) :
    (∀ u, u <+: c :: w → actions.count .pop u ≤ n + actions.count .push u) ↔
      ∃ m, n = m + 1 ∧ ∀ u, u <+: w → actions.count .pop u ≤ m + actions.count .push u := by
  constructor
  · intro hprefixes
    -- The prefix of the first symbol alone needs a marker that was there before.
    have hfirst := hprefixes [c] (List.cons_prefix_cons.2 ⟨rfl, List.nil_prefix⟩)
    obtain ⟨hpush, hpop⟩ := count_cons_pop h []
    rw [hpush, hpop, count_nil, count_nil] at hfirst
    refine ⟨n - 1, by omega, fun u hu ↦ ?_⟩
    have hle := hprefixes (c :: u) (List.cons_prefix_cons.2 ⟨rfl, hu⟩)
    obtain ⟨hpush, hpop⟩ := count_cons_pop h u
    omega
  · rintro ⟨m, rfl, hprefixes⟩ u hu
    rcases List.prefix_cons_iff.1 hu with rfl | ⟨v, rfl, hv⟩
    · simp
    · have hle := hprefixes v hv
      obtain ⟨hpush, hpop⟩ := count_cons_pop h v
      omega

/-- The symbols of a word push and pop markers, never more are popped than are pushed before, and as many
in the end. -/
structure Balanced (actions : ActionTable) (w : List Char) : Prop where
  acts : ∀ c ∈ w, actions.get? c = some .push ∨ actions.get? c = some .pop
  prefixes : ∀ u, u <+: w → actions.count .pop u ≤ actions.count .push u
  even : actions.count .push w = actions.count .pop w

def markers (actions : ActionTable) (n : Nat) : List Char → Option Nat
  | [] => some n
  | c :: w =>
    match actions.get? c, n with
    | some .push, n => markers actions (n + 1) w
    | some .pop, n + 1 => markers actions n w
    | _, _ => none

theorem markers_cons_push (h : actions.get? c = some .push) (n : Nat) (w : List Char) :
    actions.markers n (c :: w) = actions.markers (n + 1) w := by
  simp only [markers, h]

theorem markers_cons_pop (h : actions.get? c = some .pop) (n : Nat) (w : List Char) :
    actions.markers (n + 1) (c :: w) = actions.markers n w := by
  simp only [markers, h]

theorem markers_cons_eq_some_iff :
    actions.markers n (c :: w) = some k ↔
      actions.get? c = some .push ∧ actions.markers (n + 1) w = some k ∨
        actions.get? c = some .pop ∧ ∃ m, n = m + 1 ∧ actions.markers m w = some k := by
  cases h : actions.get? c with
  | none => simp [markers, h]
  | some action =>
    cases action with
    | push => simp [markers, h]
    | passThrough => simp [markers, h]
    | pop => cases n <;> simp [markers, h]

theorem markers_append (n : Nat) (u v : List Char) :
    actions.markers n (u ++ v) = (actions.markers n u).bind fun m ↦ actions.markers m v := by
  induction u generalizing n with
  | nil => rfl
  | cons c u ih =>
    cases h : actions.get? c with
    | none => simp [markers, h]
    | some action =>
      cases action with
      | push => simpa only [List.cons_append, markers_cons_push h] using ih (n + 1)
      | passThrough => simp [markers, h]
      | pop =>
        cases n with
        | zero => simp [markers, h]
        | succ n => simpa only [List.cons_append, markers_cons_pop h] using ih n

theorem markers_append_singleton_iff :
    actions.markers n (u ++ [c]) = some k ↔ ∃ m, actions.markers n u = some m ∧
      (actions.get? c = some .push ∧ k = m + 1 ∨ actions.get? c = some .pop ∧ m = k + 1) := by
  rw [markers_append, Option.bind_eq_some_iff]
  refine exists_congr fun m ↦ and_congr_right fun _ ↦ ?_
  rw [markers_cons_eq_some_iff]
  simp [markers, eq_comm]

/-- The markers left are those there at first and those pushed, less those popped. -/
theorem markers_eq_some_iff :
    actions.markers n w = some k ↔
      (∀ c ∈ w, actions.get? c = some .push ∨ actions.get? c = some .pop) ∧
        (∀ u, u <+: w → actions.count .pop u ≤ n + actions.count .push u) ∧
          n + actions.count .push w = k + actions.count .pop w := by
  induction w generalizing n with
  | nil => simp [markers]
  | cons c w ih =>
    rw [markers_cons_eq_some_iff, List.forall_mem_cons]
    constructor
    · rintro (⟨hc, hw⟩ | ⟨hc, m, rfl, hw⟩)
      · obtain ⟨hacts, hprefixes, heven⟩ := ih.1 hw
        obtain ⟨hpush, hpop⟩ := count_cons_push hc w
        exact ⟨⟨.inl hc, hacts⟩, (prefixes_cons_push hc).2 hprefixes, by omega⟩
      · obtain ⟨hacts, hprefixes, heven⟩ := ih.1 hw
        obtain ⟨hpush, hpop⟩ := count_cons_pop hc w
        exact ⟨⟨.inr hc, hacts⟩, (prefixes_cons_pop hc).2 ⟨m, rfl, hprefixes⟩, by omega⟩
    · rintro ⟨⟨hc | hc, hacts⟩, hprefixes, heven⟩
      · obtain ⟨hpush, hpop⟩ := count_cons_push hc w
        exact .inl ⟨hc, ih.2 ⟨hacts, (prefixes_cons_push hc).1 hprefixes, by omega⟩⟩
      · obtain ⟨m, rfl, hrest⟩ := (prefixes_cons_pop hc).1 hprefixes
        obtain ⟨hpush, hpop⟩ := count_cons_pop hc w
        exact .inr ⟨hc, m, rfl, ih.2 ⟨hacts, hrest, by omega⟩⟩

theorem markers_zero_iff : actions.markers 0 w = some 0 ↔ actions.Balanced w := by
  rw [markers_eq_some_iff]
  simp only [Nat.zero_add]
  exact ⟨fun ⟨hacts, hprefixes, heven⟩ ↦ ⟨hacts, hprefixes, heven⟩,
    fun h ↦ ⟨h.acts, h.prefixes, h.even⟩⟩

end RegexCompiler.ActionTable
