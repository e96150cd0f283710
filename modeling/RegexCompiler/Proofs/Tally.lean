import Mathlib.Algebra.BigOperators.Ring.Finset
import RegexCompiler.Fuzzer

namespace RegexCompiler

def Verdict.words? : Verdict → Option Nat
  | agreed words => some words
  | rejected _ => none

namespace Fuzzer

variable {verdicts : List Verdict}

def rejections (verdicts : List Verdict) : Nat := verdicts.countP fun verdict ↦ verdict.words?.isNone

def words (verdicts : List Verdict) : Nat := (verdicts.filterMap Verdict.words?).sum

@[simp]
theorem rejections_agreed {n : Nat} : rejections (.agreed n :: verdicts) = rejections verdicts :=
  List.countP_cons_of_neg (by simp [Verdict.words?])

@[simp]
theorem rejections_rejected {stage : Stage} : rejections (.rejected stage :: verdicts) = 1 + rejections verdicts :=
  (List.countP_cons_of_pos rfl).trans (Nat.add_comm _ 1)

@[simp]
theorem words_agreed {n : Nat} : words (.agreed n :: verdicts) = n + words verdicts := rfl

@[simp]
theorem words_rejected {stage : Stage} : words (.rejected stage :: verdicts) = words verdicts := rfl

theorem rejections_replicate (n : Nat) (stage : Stage) : rejections (List.replicate n (.rejected stage)) = n :=
  List.countP_replicate.trans (if_pos rfl)

theorem words_replicate (n : Nat) (stage : Stage) : words (List.replicate n (.rejected stage)) = 0 := by
  rw [words, List.filterMap_replicate_of_none rfl, List.sum_nil]

namespace Tally

variable {overflowChecks : Bool} {rejected compared : Nat}

def addAll (overflowChecks : Bool) (tally : Tally) (verdicts : List Verdict) : Option Tally :=
  verdicts.foldlM (fun tally verdict ↦ tally.add overflowChecks verdict) tally

/-- The registers when so many sources were rejected and so many words compared. -/
def ofCounts (rejected compared : Nat) : Tally := ⟨.ofNat rejected, .ofNat compared⟩

theorem toInt_rejected (rejected compared : Nat) :
    (ofCounts rejected compared).rejected.toInt = (rejected : Int).bmod (2 ^ 32) := Int32.toInt_ofNat'

theorem toNat_compared (rejected compared : Nat) :
    (ofCounts rejected compared).compared.toNat = compared % 2 ^ 64 := UInt64.toNat_ofNat'

theorem add_agreed (words : Nat) : (ofCounts rejected compared).add false (.agreed words) =
    some (ofCounts rejected (compared + words)) := by
  simp [add, ofCounts]

theorem add_rejected (stage : Stage) : (ofCounts rejected compared).add false (.rejected stage) =
    some (ofCounts (rejected + 1) compared) := by
  simp [add, ofCounts]

theorem add_agreed_checked (h : compared < 2 ^ 64) (words : Nat) :
    (ofCounts rejected compared).add true (.agreed words) =
      if compared + words < 2 ^ 64 then some (ofCounts rejected (compared + words)) else none := by
  have hcompared : (UInt64.ofNat compared).toNat = compared := UInt64.toNat_ofNat_of_lt' h
  have hsize : UInt64.size = 2 ^ 64 := rfl
  simp only [add, ofCounts, hcompared, hsize, true_and, UInt64.ofNat_add, ← Nat.not_lt, ite_not]

theorem ofNat_eq_maxValue_iff (h : rejected < 2 ^ 31) :
    Int32.ofNat rejected = Int32.maxValue ↔ ¬ rejected + 1 < 2 ^ 31 := by
  rw [← Int32.toInt_inj, Int32.toInt_ofNat_of_lt h, Int32.toInt_maxValue]
  omega

theorem add_rejected_checked (h : rejected < 2 ^ 31) (stage : Stage) :
    (ofCounts rejected compared).add true (.rejected stage) =
      if rejected + 1 < 2 ^ 31 then some (ofCounts (rejected + 1) compared) else none := by
  simp only [add, ofCounts, ofNat_eq_maxValue_iff h, true_and, Int32.ofNat_add, ite_not]
  rfl

/-- Without checks both counts are kept modulo their widths. -/
theorem addAll_wrapping (rejected compared : Nat) (verdicts : List Verdict) :
    addAll false (ofCounts rejected compared) verdicts =
      some (ofCounts (rejected + rejections verdicts) (compared + words verdicts)) := by
  induction verdicts generalizing rejected compared with
  | nil => rfl
  | cons verdict verdicts ih =>
    rw [addAll, List.foldlM_cons]
    cases verdict with
    | agreed n =>
      rw [add_agreed, rejections_agreed, words_agreed, ← Nat.add_assoc]
      exact ih rejected (compared + n)
    | rejected stage =>
      rw [add_rejected, rejections_rejected, words_rejected, ← Nat.add_assoc]
      exact ih (rejected + 1) compared

/-- With checks there is a result just if both counts fit their widths at the end: they never go down. -/
theorem addAll_checked (verdicts : List Verdict) (hrejected : rejected < 2 ^ 31) (hcompared : compared < 2 ^ 64) :
    addAll true (ofCounts rejected compared) verdicts =
      if rejected + rejections verdicts < 2 ^ 31 ∧ compared + words verdicts < 2 ^ 64 then
        some (ofCounts (rejected + rejections verdicts) (compared + words verdicts))
      else none := by
  induction verdicts generalizing rejected compared with
  | nil => exact (if_pos ⟨hrejected, hcompared⟩).symm
  | cons verdict verdicts ih =>
    rw [addAll, List.foldlM_cons]
    cases verdict with
    | agreed n =>
      rw [add_agreed_checked hcompared, rejections_agreed, words_agreed, ← Nat.add_assoc]
      by_cases hfits : compared + n < 2 ^ 64
      · rw [if_pos hfits]
        exact ih hrejected hfits
      · rw [if_neg hfits, if_neg (by omega)]
        rfl
    | rejected stage =>
      rw [add_rejected_checked hrejected, rejections_rejected, words_rejected, ← Nat.add_assoc]
      by_cases hfits : rejected + 1 < 2 ^ 31
      · rw [if_pos hfits]
        exact ih hfits hcompared
      · rw [if_neg hfits, if_neg (by omega)]
        rfl

theorem addAll_empty_wrapping (verdicts : List Verdict) :
    addAll false {} verdicts = some (ofCounts (rejections verdicts) (words verdicts)) := by
  have hcounts := addAll_wrapping 0 0 verdicts
  rwa [Nat.zero_add, Nat.zero_add] at hcounts

theorem addAll_empty_checked (verdicts : List Verdict) :
    addAll true {} verdicts =
      if rejections verdicts < 2 ^ 31 ∧ words verdicts < 2 ^ 64 then
        some (ofCounts (rejections verdicts) (words verdicts))
      else none := by
  have hcounts : addAll true (ofCounts 0 0) verdicts = _ := addAll_checked verdicts (by decide) (by decide)
  rwa [Nat.zero_add, Nat.zero_add] at hcounts

end Tally

end Fuzzer

end RegexCompiler
