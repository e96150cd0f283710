import RegexCompiler.Proofs.Conversion

namespace RegexCompiler

open Token Conversion

namespace Derives

variable {ts us : List Token} {e a : Expr}

theorem exists_star (h : Derives .expression ts e) :
    ∃ e', Derives .expression (ts ++ [.operator .star]) e' := by
  have hterm {ts : List Token} {e : Expr} (h : Derives .term ts e) :
      ∃ e', Derives .term (ts ++ [.operator .star]) e' := by
    cases h with
    | factor h => exact ⟨_, .factor (.star h)⟩
    | concat hl hr =>
      rw [List.append_assoc]
      exact ⟨_, .concat hl (.star hr)⟩
  cases h with
  | term h =>
    obtain ⟨e', h'⟩ := hterm h
    exact ⟨e', .term h'⟩
  | alternation hl hr =>
    obtain ⟨e', hr'⟩ := hterm hr
    rw [List.append_assoc]
    exact ⟨_, .alternation hl hr'⟩

theorem exists_append (h : Derives .expression ts e) (ha : Derives .atom us a) :
    ∃ e', Derives .expression (ts ++ us) e' := by
  cases h with
  | term h => exact ⟨_, .term (.concat h (.atom ha))⟩
  | alternation hl hr =>
    rw [List.append_assoc]
    exact ⟨_, .alternation hl (.concat hr (.atom ha))⟩

end Derives

/-- What a group can hold up to some point. The flag tells whether an operand ends there. -/
inductive Opened : Bool → List Token → Prop
  | empty : Opened false []
  | ended {ts : List Token} {e : Expr} : Derives .expression ts e → Opened true ts
  | alternation {ts : List Token} {e : Expr} :
    Derives .expression ts e → Opened false (ts ++ [.operator .alternation])

namespace Opened

variable {ended : Bool} {ts us : List Token} {e : Expr}

theorem exists_derives (h : Opened true ts) : ∃ e, Derives .expression ts e := by
  cases h with
  | ended h => exact ⟨_, h⟩

theorem operand (h : Opened ended ts) (ha : Derives .atom us e) : Opened true (ts ++ us) := by
  cases h with
  | empty => exact .ended (.term (.factor (.atom ha)))
  | ended h =>
    obtain ⟨e', h'⟩ := h.exists_append ha
    exact .ended h'
  | alternation h =>
    rw [List.append_assoc]
    exact .ended (.alternation h (.factor (.atom ha)))

theorem operator {op : Operator} (h : Opened true ts) (hop : op ≠ .concat) :
    Opened (endsOperand (.operator op)) (ts ++ [.operator op]) := by
  obtain ⟨e, he⟩ := h.exists_derives
  cases op with
  | alternation => exact .alternation he
  | concat => exact absurd rfl hop
  | star =>
    obtain ⟨e', he'⟩ := he.exists_star
    exact .ended he'

end Opened

/-- What tokens can be up to some point, within a number of groups that are still open. -/
inductive Begun : Nat → Bool → List Token → Prop
  | outermost {ended : Bool} {ts : List Token} : Opened ended ts → Begun 0 ended ts
  | group {depth : Nat} {before ended : Bool} {outer inner : List Token} : Begun depth before outer →
    Opened ended inner → Begun (depth + 1) ended (outer ++ .groupOpen :: inner)

namespace Begun

variable {depth depth' : Nat} {ended ended' : Bool} {t : Token} {ts us : List Token}

theorem extend (h : Begun depth ended ts)
    (hinner : ∀ inner, Opened ended inner → Opened ended' (inner ++ us)) : Begun depth ended' (ts ++ us) := by
  cases h with
  | outermost h => exact .outermost (hinner _ h)
  | group houter h =>
    rw [List.append_assoc]
    exact .group houter (hinner _ h)

/-- A token that does not come where an operand is missing goes on with what has begun. -/
theorem step (h : Begun depth ended ts) (hinvalid : ∀ c, t ≠ .invalid c) (hconcat : t ≠ .operator .concat)
    (hgap : (ended || t.startsOperand) = true) (hdepth : groupDepth depth [t] = some depth') :
    Begun depth' t.endsOperand (ts ++ [t]) := by
  cases t with
  | literal c =>
    cases hdepth
    exact h.extend fun _ hinner ↦ hinner.operand (.literal c)
  | operator op =>
    cases hdepth
    obtain rfl : ended = true := (Bool.or_false ended).symm.trans hgap
    exact h.extend fun _ hinner ↦ hinner.operator fun hop ↦ hconcat (congrArg Token.operator hop)
  | groupOpen =>
    cases hdepth
    exact .group h .empty
  | groupClose =>
    obtain rfl : ended = true := (Bool.or_false ended).symm.trans hgap
    cases h with
    | outermost => cases hdepth
    | @group _ _ _ outer inner houter hinner =>
      cases hdepth
      obtain ⟨e, he⟩ := hinner.exists_derives
      have hclosed : Begun depth' true (outer ++ (.groupOpen :: inner ++ [.groupClose])) :=
        houter.extend fun _ h ↦ h.operand (.group he)
      rw [← List.append_assoc] at hclosed
      exact hclosed
  | invalid c => exact absurd rfl (hinvalid c)

theorem append (h : Begun depth ended ts) (hinvalid : ∀ c, .invalid c ∉ us)
    (hconcat : .operator .concat ∉ us) (hgaps : gaps ended us = 0) (hdepth : groupDepth depth us = some 0) :
    Begun 0 true (ts ++ us) := by
  induction us generalizing depth ended ts with
  | nil =>
    cases hdepth
    cases ended with
    | false => cases hgaps
    | true =>
      rw [List.append_nil]
      exact h
  | cons t us ih =>
    obtain ⟨hgap, hgaps⟩ := gaps_cons_eq_zero_iff.1 hgaps
    have hdepth' := groupDepth_append depth [t] us
    rw [List.singleton_append, hdepth, eq_comm, Option.bind_eq_some_iff] at hdepth'
    obtain ⟨depth', hdepth, hdepth'⟩ := hdepth'
    have hstep := h.step (fun c hc ↦ hinvalid c (hc ▸ List.mem_cons_self))
      (fun hc ↦ hconcat (hc ▸ List.mem_cons_self)) hgap hdepth
    have hrest := ih hstep (fun c hc ↦ hinvalid c (List.mem_cons_of_mem t hc))
      (fun hc ↦ hconcat (List.mem_cons_of_mem t hc)) hgaps hdepth'
    rw [List.append_assoc] at hrest
    exact hrest

end Begun

/-- Tokens in which every group is closed and no operand is missing are an expression. -/
theorem exists_derives_of_gaps {ts : List Token} (hinvalid : ∀ c, .invalid c ∉ ts)
    (hconcat : .operator .concat ∉ ts) (hgaps : gaps false ts = 0) (hdepth : groupDepth 0 ts = some 0) :
    ∃ e, Derives .expression ts e := by
  have hbegun := (Begun.outermost .empty).append hinvalid hconcat hgaps hdepth
  cases hbegun with
  | outermost h => exact h.exists_derives

end RegexCompiler
