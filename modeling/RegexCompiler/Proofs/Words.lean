import Mathlib.Algebra.BigOperators.Intervals
import Mathlib.Algebra.BigOperators.Ring.Finset
import Mathlib.Data.List.Nodup
import Mathlib.Data.List.Shortlex
import Mathlib.Tactic.Ring
import RegexCompiler.Words

namespace RegexCompiler

variable {symbols v w : List Char} {words longer : List (List Char)} {c d : Char} {n m k : Nat}

theorem length_lengthen (symbols : List Char) (words : List (List Char)) :
    (lengthen symbols words).length = words.length * symbols.length := by
  simp [lengthen]

theorem length_wordsFrom (symbols : List Char) (words : List (List Char)) (more : Nat) :
    (wordsFrom symbols words more).length =
      words.length * ∑ i ∈ Finset.range (more + 1), symbols.length ^ i := by
  induction more generalizing words with
  | zero => simp [wordsFrom]
  | succ more ih =>
    rw [wordsFrom]
    split
    · rename_i hempty
      have hnone : words.length = 0 := by rw [List.isEmpty_iff.1 hempty, List.length_nil]
      rw [hnone, Nat.zero_mul, List.length_nil]
    · rw [List.length_append, ih, length_lengthen, Finset.sum_range_succ' _ (more + 1)]
      simp only [pow_succ, ← Finset.sum_mul, pow_zero]
      ring

theorem length_wordsUpTo (symbols : List Char) (maxLength : Nat) :
    (wordsUpTo symbols maxLength).length =
      ∑ i ∈ Finset.range (maxLength + 1), symbols.length ^ i := by
  rw [wordsUpTo, length_wordsFrom, List.length_singleton, Nat.one_mul]

/-- Whether a word is listed before another one: it is shorter, or else as long and lexicographically
smaller, where a symbol counts by its position. -/
def Precedes (symbols v w : List Char) : Prop :=
  List.Shortlex (· < ·) (v.map symbols.idxOf) (w.map symbols.idxOf)

theorem Precedes.of_length_lt (h : v.length < w.length) : Precedes symbols v w := by
  apply List.Shortlex.of_length_lt
  rwa [List.length_map, List.length_map]

instance irrefl_precedes (symbols : List Char) : Std.Irrefl (Precedes symbols) :=
  ⟨fun w ↦ Std.Irrefl.irrefl (r := List.Shortlex (· < ·)) (w.map symbols.idxOf)⟩

theorem lex_append_of_length_eq {xs ys : List Nat} (h : List.Lex (· < ·) xs ys)
    (hlength : xs.length = ys.length) (xs' ys' : List Nat) : List.Lex (· < ·) (xs ++ xs') (ys ++ ys') := by
  induction h with
  | nil => cases hlength
  | rel hlt => exact .rel hlt
  | cons _ ih => exact .cons (ih (Nat.succ.inj hlength))

theorem Precedes.append_singleton (h : Precedes symbols v w) (c d : Char) :
    Precedes symbols (v ++ [c]) (w ++ [d]) := by
  rcases List.shortlex_def.1 h with hlength | ⟨hlength, hlex⟩
  · rw [List.length_map, List.length_map] at hlength
    apply Precedes.of_length_lt
    rw [List.length_append, List.length_append]
    exact Nat.add_lt_add_right hlength 1
  · rw [Precedes, List.map_append, List.map_append]
    apply List.Shortlex.of_lex
    · rw [List.length_append, List.length_append, hlength]
      rfl
    · exact lex_append_of_length_eq hlex hlength _ _

theorem precedes_append_of_idxOf_lt (h : symbols.idxOf c < symbols.idxOf d) (w : List Char) :
    Precedes symbols (w ++ [c]) (w ++ [d]) := by
  rw [Precedes, List.map_append, List.map_append]
  exact List.Shortlex.append_left ((List.shortlex_singleton_iff _ _).2 h) _

theorem pairwise_idxOf_lt (h : symbols.Nodup) :
    symbols.Pairwise fun c d ↦ symbols.idxOf c < symbols.idxOf d := by
  apply List.pairwise_iff_getElem.2
  intro i j hi hj hij
  rwa [h.idxOf_getElem i hi, h.idxOf_getElem j hj]

theorem mem_lengthen_iff : w ∈ lengthen symbols words ↔ ∃ v ∈ words, ∃ c ∈ symbols, v ++ [c] = w := by
  simp only [lengthen, List.mem_flatMap, List.mem_map]

structure Lists (symbols : List Char) (least greatest : Nat) (words : List (List Char)) : Prop where
  mem_iff : ∀ w, w ∈ words ↔ (least ≤ w.length ∧ w.length ≤ greatest) ∧ ∀ c ∈ w, c ∈ symbols
  ascending : words.Pairwise (Precedes symbols)

theorem lists_nil (symbols : List Char) : Lists symbols 0 0 [[]] where
  mem_iff w := by cases w <;> simp
  ascending := List.pairwise_singleton _ _

theorem Lists.append (h : Lists symbols n m words) (hlonger : Lists symbols (m + 1) k longer) (hnm : n ≤ m)
    (hmk : m ≤ k) : Lists symbols n k (words ++ longer) where
  mem_iff w := by
    rw [List.mem_append, h.mem_iff, hlonger.mem_iff, ← or_and_right]
    apply and_congr_left'
    omega
  ascending := by
    refine List.pairwise_append.2 ⟨h.ascending, hlonger.ascending, fun v hv w hw ↦ ?_⟩
    have hshort := ((h.mem_iff v).1 hv).1.2
    have hlong := ((hlonger.mem_iff w).1 hw).1.1
    exact .of_length_lt (Nat.lt_of_le_of_lt hshort hlong)

/-- Where there are no words of a length there are no longer ones: they would begin with one. -/
theorem Lists.nil_of_nil (h : Lists symbols n n []) (m : Nat) : Lists symbols n m [] where
  mem_iff w := by
    constructor
    · intro hw
      cases hw
    · rintro ⟨⟨hle, -⟩, hw⟩
      have htake : (w.take n).length = n := List.length_take_of_le hle
      have hmem : w.take n ∈ [] :=
        (h.mem_iff _).2 ⟨⟨htake.ge, htake.le⟩, fun c hc ↦ hw c (List.mem_of_mem_take hc)⟩
      cases hmem
  ascending := .nil

theorem Lists.lengthened (h : Lists symbols n n words) (hsymbols : symbols.Nodup) :
    Lists symbols (n + 1) (n + 1) (lengthen symbols words) where
  mem_iff w := by
    rw [mem_lengthen_iff]
    constructor
    · rintro ⟨v, hv, c, hc, rfl⟩
      obtain ⟨hlength, hv⟩ := (h.mem_iff v).1 hv
      rw [List.length_append, List.length_singleton]
      exact ⟨by omega, List.forall_mem_append.2 ⟨hv, List.forall_mem_singleton.2 hc⟩⟩
    · rintro ⟨hlength, hw⟩
      rcases List.eq_nil_or_concat' w with rfl | ⟨v, c, rfl⟩
      · rw [List.length_nil] at hlength
        omega
      · rw [List.length_append, List.length_singleton] at hlength
        obtain ⟨hv, hc⟩ := List.forall_mem_append.1 hw
        exact ⟨v, (h.mem_iff v).2 ⟨by omega, hv⟩, c, List.forall_mem_singleton.1 hc, rfl⟩
  ascending := by
    refine List.pairwise_flatMap.2 ⟨fun w _ ↦ ?_, h.ascending.imp fun hvw x hx y hy ↦ ?_⟩
    · exact List.pairwise_map.2 ((pairwise_idxOf_lt hsymbols).imp fun hcd ↦ precedes_append_of_idxOf_lt hcd w)
    · obtain ⟨c, -, rfl⟩ := List.mem_map.1 hx
      obtain ⟨d, -, rfl⟩ := List.mem_map.1 hy
      exact hvw.append_singleton c d

theorem lists_wordsFrom (h : Lists symbols n n words) (hsymbols : symbols.Nodup) (more : Nat) :
    Lists symbols n (n + more) (wordsFrom symbols words more) := by
  induction more generalizing n words with
  | zero => exact h
  | succ more ih =>
    rw [wordsFrom]
    split
    · rename_i hempty
      rw [List.isEmpty_iff.1 hempty] at h
      exact h.nil_of_nil _
    · -- the words listed so far are of one length, so those that follow are longer
      have hlonger := ih (h.lengthened hsymbols)
      rw [Nat.add_right_comm] at hlonger
      exact h.append hlonger le_rfl (by omega)

/-- Over symbols that differ from each other, every word that is not too long is listed once, in ascending
order, and no other word is. -/
theorem wordsUpTo_enumerates (symbols : List Char) (hsymbols : symbols.Nodup) (maxLength : Nat) :
    (∀ w, w ∈ wordsUpTo symbols maxLength ↔ w.length ≤ maxLength ∧ ∀ c ∈ w, c ∈ symbols) ∧
      (wordsUpTo symbols maxLength).Nodup ∧
      (wordsUpTo symbols maxLength).Pairwise (Precedes symbols) := by
  have hlists : Lists symbols 0 (0 + maxLength) (wordsUpTo symbols maxLength) :=
    lists_wordsFrom (lists_nil symbols) hsymbols maxLength
  rw [Nat.zero_add] at hlists
  refine ⟨fun w ↦ ?_, hlists.ascending.nodup, hlists.ascending⟩
  rw [hlists.mem_iff]
  exact and_congr_left' (and_iff_right (Nat.zero_le w.length))

theorem wordsUpTo_enumerates_ba : ['b', 'a'].Nodup ∧
    (∀ w, w ∈ wordsUpTo ['b', 'a'] 2 ↔ w.length ≤ 2 ∧ ∀ c ∈ w, c ∈ ['b', 'a']) ∧
      (wordsUpTo ['b', 'a'] 2).Nodup ∧ (wordsUpTo ['b', 'a'] 2).Pairwise (Precedes ['b', 'a']) :=
  ⟨by decide, wordsUpTo_enumerates ['b', 'a'] (by decide) 2⟩

-- The order of the symbols is that of their list. Without symbols there is the empty word all the same.
example : wordsUpTo ['b', 'a'] 2 = [[], ['b'], ['a'], ['b', 'b'], ['b', 'a'], ['a', 'b'], ['a', 'a']] ∧
    wordsUpTo [] 3 = [[]] := by decide

end RegexCompiler
