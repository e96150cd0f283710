import RegexCompiler.Token.Concatenation

namespace RegexCompiler.Token

def seam (xs ys : List Token) : List Token :=
  match xs.getLast?, ys.head? with
  | some left, some right => if left.joins right then [.operator .concat] else []
  | _, _ => []

theorem seam_eq (xs ys : List Token) : seam xs ys =
    if xs.getLast?.any endsOperand && ys.head?.any startsOperand then [.operator .concat] else [] := by
  unfold seam
  cases xs.getLast? <;> cases ys.head? <;> simp [joins]

theorem seam_singleton_cons (left right : Token) (ts : List Token) :
    seam [left] (right :: ts) = if left.joins right then [.operator .concat] else [] := rfl

theorem nil_seam (ys : List Token) : seam [] ys = [] := rfl

theorem seam_nil (xs : List Token) : seam xs [] = [] := by simp [seam_eq]

theorem seam_cons (x x' : Token) (xs ys : List Token) : seam (x :: x' :: xs) ys = seam (x' :: xs) ys := by
  simp [seam_eq, List.getLast?_cons_cons]

theorem seam_of_not_endsOperand {xs : List Token} {left : Token} (h : xs.getLast? = some left)
    (hleft : left.endsOperand = false) (ys : List Token) : seam xs ys = [] := by
  simp [seam_eq, h, hleft]

theorem seam_of_not_startsOperand {ys : List Token} {right : Token} (h : ys.head? = some right)
    (hright : right.startsOperand = false) (xs : List Token) : seam xs ys = [] := by
  simp [seam_eq, h, hright]

theorem seam_of_joins {xs ys : List Token} {left right : Token} (hxs : xs.getLast? = some left)
    (hys : ys.head? = some right) (hleft : left.endsOperand = true) (hright : right.startsOperand = true) :
    seam xs ys = [.operator .concat] := by
  simp [seam_eq, hxs, hys, hleft, hright]

theorem insertConcatenation_cons (x : Token) (xs : List Token) :
    insertConcatenation (x :: xs) = x :: (seam [x] xs ++ insertConcatenation xs) := by
  cases xs with
  | nil => rfl
  | cons x' xs =>
    rw [insertConcatenation, seam_singleton_cons]
    split
    · rfl
    · rfl

theorem insertConcatenation_append_eq (xs ys : List Token) :
    insertConcatenation (xs ++ ys) = insertConcatenation xs ++ seam xs ys ++ insertConcatenation ys := by
  induction xs with
  | nil => rfl
  | cons x xs ih =>
    rw [List.cons_append, insertConcatenation_cons, insertConcatenation_cons, ih]
    cases xs with
    | nil => simp [insertConcatenation, seam_nil, nil_seam]
    | cons x' xs =>
      have hhead : seam [x] (x' :: xs ++ ys) = seam [x] (x' :: xs) := rfl
      rw [hhead, seam_cons]
      simp only [List.cons_append, List.append_assoc]

theorem eq_concat_of_mem_seam {t : Token} {xs ys : List Token} (h : t ∈ seam xs ys) :
    t = .operator .concat := by
  rw [seam_eq] at h
  split at h
  · exact List.mem_singleton.1 h
  · cases h

theorem mem_of_mem_insertConcatenation {t : Token} {ts : List Token} (h : t ∈ insertConcatenation ts) :
    t = .operator .concat ∨ t ∈ ts := by
  induction ts with
  | nil => cases h
  | cons x xs ih =>
    rw [insertConcatenation_cons] at h
    rcases List.mem_cons.1 h with rfl | h
    · exact .inr List.mem_cons_self
    · rcases List.mem_append.1 h with h | h
      · exact .inl (eq_concat_of_mem_seam h)
      · exact (ih h).imp_right (List.mem_cons_of_mem x)

theorem insertConcatenation_group (ts : List Token) :
    insertConcatenation (.groupOpen :: ts ++ [.groupClose]) =
      .groupOpen :: (insertConcatenation ts ++ [.groupClose]) := by
  rw [insertConcatenation_append_eq, seam_of_not_startsOperand rfl rfl, insertConcatenation_cons,
    seam_of_not_endsOperand rfl rfl]
  simp [insertConcatenation]

theorem insertConcatenation_star (ts : List Token) :
    insertConcatenation (ts ++ [.operator .star]) = insertConcatenation ts ++ [.operator .star] := by
  rw [insertConcatenation_append_eq, seam_of_not_startsOperand rfl rfl, List.append_nil]
  rfl

theorem insertConcatenation_alternation (ts us : List Token) :
    insertConcatenation (ts ++ .operator .alternation :: us) =
      insertConcatenation ts ++ .operator .alternation :: insertConcatenation us := by
  rw [insertConcatenation_append_eq, seam_of_not_startsOperand rfl rfl, insertConcatenation_cons,
    seam_of_not_endsOperand rfl rfl, List.append_nil]
  rfl

def isLiteral : Token → Bool
  | literal _ => true
  | _ => false

def isBinary : Token → Bool
  | operator op => op.arity = 2
  | _ => false

def isGroup : Token → Bool
  | groupOpen | groupClose => true
  | _ => false

/-- The number of places where an operand is missing: a token that can not start one comes where none has
ended, or the sequence ends there. -/
def gaps (ended : Bool) : List Token → Nat
  | [] => if ended then 0 else 1
  | t :: ts => (if ended || t.startsOperand then 0 else 1) + gaps t.endsOperand ts

theorem gaps_cons_eq_zero_iff {ended : Bool} {t : Token} {ts : List Token} :
    gaps ended (t :: ts) = 0 ↔ (ended || t.startsOperand) = true ∧ gaps t.endsOperand ts = 0 := by
  rw [gaps, Nat.add_eq_zero_iff]
  cases ended || t.startsOperand <;> simp

/-- A literal starts and ends an operand, a binary operator does neither, any other token one of both. -/
theorem boundary_count {t : Token} (h : ∀ c, t ≠ .invalid c) :
    t.endsOperand.toNat + t.startsOperand.toNat + t.isBinary.toNat = t.isLiteral.toNat + 1 := by
  cases t with
  | operator op => cases op <;> rfl
  | invalid c => exact absurd rfl (h c)
  | literal | groupOpen | groupClose => rfl

theorem countP_cons_toNat (p : Token → Bool) (t : Token) (ts : List Token) :
    (t :: ts).countP p = ts.countP p + (p t).toNat := by
  cases h : p t <;> simp [h]

theorem count_after {t : Token} {ts : List Token} (ht : ∀ c, t ≠ .invalid c) (hts : ∀ c, .invalid c ∉ ts) :
    (insertConcatenation (t :: ts)).countP isLiteral + gaps t.endsOperand ts =
      (insertConcatenation (t :: ts)).countP isBinary + t.startsOperand.toNat := by
  induction ts generalizing t with
  | nil =>
    have hcount := boundary_count ht
    rw [insertConcatenation_cons, seam_nil]
    simp only [insertConcatenation, List.append_nil, countP_cons_toNat, List.countP_nil, gaps]
    cases hends : t.endsOperand
    · simp [hends] at hcount ⊢
      omega
    · simp [hends] at hcount ⊢
      omega
  | cons t' ts ih =>
    have hcount := boundary_count ht
    have hrest := ih (fun c hc ↦ hts c (hc ▸ List.mem_cons_self)) fun c hc ↦
      hts c (List.mem_cons_of_mem t' hc)
    rw [insertConcatenation_cons]
    simp only [countP_cons_toNat, List.countP_append, gaps, seam]
    cases hends : t.endsOperand <;> cases hstarts : t'.startsOperand
    all_goals
      simp [hends, hstarts, joins, isLiteral, isBinary, Operator.arity] at hcount hrest ⊢
      omega

/-- Among the tokens of a source with concatenation made explicit there are as many literals as binary
operators and one more, less one for every operand that is missing. -/
theorem count_insertConcatenation {ts : List Token} (h : ∀ c, .invalid c ∉ ts) :
    (insertConcatenation ts).countP isLiteral + gaps false ts =
      (insertConcatenation ts).countP isBinary + 1 := by
  cases ts with
  | nil => rfl
  | cons t ts =>
    have hcount := count_after (fun c hc ↦ h c (hc ▸ List.mem_cons_self)) fun c hc ↦
      h c (List.mem_cons_of_mem t hc)
    rw [gaps, Bool.false_or]
    cases hstarts : t.startsOperand
    · simp [hstarts] at hcount ⊢
      omega
    · simpa [hstarts] using hcount

end RegexCompiler.Token
