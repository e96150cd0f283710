import Mathlib.Data.List.Basic
import RegexCompiler.Pda.Basic

namespace RegexCompiler

open Function

theorem State.toList_name (q : State) : (State.name q).toList = 'q' :: Nat.toDigits 10 q := by
  simp [State.name, Nat.repr_eq_ofList_toDigits]

theorem State.name_injective : Injective State.name := by
  intro p q h
  have htext := congrArg String.toList h
  rw [State.toList_name, State.toList_name] at htext
  have hdigits := (List.cons_eq_cons.1 htext).2
  calc
    p = Nat.ofDigitChars 10 (Nat.toDigits 10 p) 0 := Nat.ofDigitChars_ten_toDigits.symm
    _ = Nat.ofDigitChars 10 (Nat.toDigits 10 q) 0 := by rw [hdigits]
    _ = q := Nat.ofDigitChars_ten_toDigits

theorem State.comma_not_mem_name (q : State) : ',' ∉ (State.name q).toList := by
  rw [State.toList_name]
  intro hmem
  rcases List.mem_cons.1 hmem with hq | hdigits
  · exact absurd hq (by decide)
  · exact absurd (Nat.isDigit_of_mem_toDigits (by decide) (by decide) hdigits) (by decide)

theorem intercalate_ne_nil {sep : Char} {x : List Char} {xs : List (List Char)} (hx : x ≠ []) :
    [sep].intercalate (x :: xs) ≠ [] := by
  obtain ⟨c, x, rfl⟩ := List.exists_cons_of_ne_nil hx
  rw [List.intercalate_cons_cons_left]
  exact List.cons_ne_nil c _

/-- Words that are joined by a separator can be told apart, if it occurs in none of them and none is empty. -/
theorem eq_of_intercalate_eq {sep : Char} {xs ys : List (List Char)} (hxs : ∀ x ∈ xs, sep ∉ x ∧ x ≠ [])
    (hys : ∀ y ∈ ys, sep ∉ y ∧ y ≠ []) (h : [sep].intercalate xs = [sep].intercalate ys) : xs = ys := by
  cases xs with
  | nil =>
    cases ys with
    | nil => rfl
    | cons y ys =>
      obtain ⟨-, hy⟩ := hys y List.mem_cons_self
      exact absurd h.symm (intercalate_ne_nil hy)
  | cons x xs =>
    cases ys with
    | nil =>
      obtain ⟨-, hx⟩ := hxs x List.mem_cons_self
      exact absurd h (intercalate_ne_nil hx)
    | cons y ys =>
      have hsplit := congrArg (List.splitOn sep) h
      rwa [List.splitOn_intercalate sep (fun z hz ↦ (hxs z hz).1) (List.cons_ne_nil x xs),
        List.splitOn_intercalate sep (fun z hz ↦ (hys z hz).1) (List.cons_ne_nil y ys)] at hsplit

namespace StateSet

theorem toList_name (states : StateSet) :
    (StateSet.name states).toList =
      '\x7b' :: [','].intercalate (states.toList.map fun q ↦ (State.name q).toList) ++ ['\x7d'] := by
  rw [StateSet.name, String.toList_append, String.toList_append, String.toList_intercalate, List.map_map]
  rfl

theorem name_injective : Injective StateSet.name := by
  intro s s' h
  have hnames : ∀ states : StateSet, ∀ name ∈ states.toList.map fun q ↦ (State.name q).toList,
      ',' ∉ name ∧ name ≠ [] := by
    intro states name hname
    obtain ⟨q, -, rfl⟩ := List.mem_map.1 hname
    refine ⟨State.comma_not_mem_name q, ?_⟩
    rw [State.toList_name]
    exact List.cons_ne_nil _ _
  have htext := congrArg String.toList h
  rw [toList_name, toList_name] at htext
  have hjoined := (List.cons_eq_cons.1 (List.append_cancel_right htext)).2
  have hmembers := eq_of_intercalate_eq (hnames s) (hnames s') hjoined
  have hinjective : Injective fun q : State ↦ (State.name q).toList :=
    fun p q heq ↦ State.name_injective (String.toList_injective heq)
  have htoList := List.map_injective_iff.2 hinjective hmembers
  cases s
  cases s'
  congr

end StateSet

/-- An optional value can be read off a text for which `d` stands in where it is missing, unless it is `d`. -/
theorem eq_of_getD_eq {α : Type} {d : α} {x y : Option α} (hx : x ≠ some d) (hy : y ≠ some d)
    (h : x.getD d = y.getD d) : x = y := by
  cases x with
  | none =>
    cases y with
    | none => rfl
    | some b => exact absurd (congrArg some h.symm) hy
  | some a =>
    cases y with
    | none => exact absurd (congrArg some h) hx
    | some b => exact congrArg some h

namespace Label

theorem text_eq (label : Label) : label.text = String.singleton (label.symbol?.getD 'ε') := by
  cases label <;> rfl

theorem symbol?_injective : Injective symbol? := by
  intro label label' h
  cases label <;> cases label' <;> simp_all [symbol?]

/-- A label can be read off its text, unless it is a symbol that is written like the missing one. -/
theorem eq_of_text_eq {label label' : Label} (hlabel : label ≠ .symbol 'ε') (hlabel' : label' ≠ .symbol 'ε')
    (h : label.text = label'.text) : label = label' := by
  have hsymbol {label : Label} (hlabel : label ≠ .symbol 'ε') : label.symbol? ≠ some 'ε' :=
    fun heq ↦ hlabel (symbol?_injective heq)
  have htext := congrArg String.toList h
  rw [text_eq, text_eq, String.toList_singleton, String.toList_singleton] at htext
  exact symbol?_injective (eq_of_getD_eq (hsymbol hlabel) (hsymbol hlabel') (List.singleton_inj.1 htext))

end Label

namespace Pda

/-- A set of states is written in braces, the other states are not. -/
theorem name_inner_ne (states : StateSet) {text : String} (h : text.toList.head? ≠ some '\x7b') :
    (State.inner states).name ≠ text := by
  rintro rfl
  rw [State.name, StateSet.toList_name] at h
  exact h rfl

theorem State.name_injective : Injective State.name := by
  intro s s' h
  cases s with
  | start =>
    cases s' with
    | start => rfl
    | inner states => exact absurd h.symm (name_inner_ne states (by decide))
    | accept => exact absurd h (by decide)
  | inner states =>
    cases s' with
    | start => exact absurd h (name_inner_ne states (by decide))
    | inner states' => rw [StateSet.name_injective h]
    | accept => exact absurd h (name_inner_ne states (by decide))
  | accept =>
    cases s' with
    | start => exact absurd h (by decide)
    | inner states => exact absurd h.symm (name_inner_ne states (by decide))
    | accept => rfl

def mark : Option StackSymbol → Char
  | none => 'ε'
  | some .bottom => 'Z'
  | some .marker => 'X'

theorem mark_injective : Injective mark := by
  intro part part' h
  rcases part with _ | _ | _ <;> rcases part' with _ | _ | _ <;> first | rfl | exact absurd h (by decide)

theorem toList_label (t : Transition) :
    t.label.toList = [t.input.getD 'ε', ',', ' ', mark t.pop, ' ', '→', ' ', mark t.push] := by
  have hmark (part : Option StackSymbol) : ((part.map StackSymbol.text).getD "ε").toList = [mark part] := by
    rcases part with _ | _ | _ <;> rfl
  have hinput : ((t.input.map String.singleton).getD "ε").toList = [t.input.getD 'ε'] := by
    cases t.input with
    | none => rfl
    | some c => exact String.toList_singleton c
  simp only [Transition.label, String.toList_append, hmark, hinput]
  rfl

/-- The parts of a transition can be read off its label, unless it reads a symbol that is written like the
missing one: each part takes up one character, whatever the symbol is. -/
theorem eq_of_label_eq {t t' : Transition} (ht : t.input ≠ some 'ε') (ht' : t'.input ≠ some 'ε')
    (h : t.label = t'.label) : t.input = t'.input ∧ t.pop = t'.pop ∧ t.push = t'.push := by
  have htext := congrArg String.toList h
  rw [toList_label, toList_label] at htext
  simp only [List.cons.injEq, and_true, true_and] at htext
  obtain ⟨hinput, hpop, hpush⟩ := htext
  exact ⟨eq_of_getD_eq ht ht' hinput, mark_injective hpop, mark_injective hpush⟩

end Pda

end RegexCompiler
