import RegexCompiler.Proofs.Concatenation
import RegexCompiler.Proofs.Scan
import RegexCompiler.Proofs.Thompson

namespace RegexCompiler

namespace Token

/-- What a token adds to the operands that are there: an operator takes as many as its arity and leaves one. -/
def depthChange : Token → Int
  | literal _ => 1
  | operator op => 1 - op.arity
  | groupOpen | groupClose | invalid _ => 0

def depthAfter (depth : Int) : List Token → Int
  | [] => depth
  | t :: ts => depthAfter (depth + t.depthChange) ts

def Refused (depth : Int) : Token → Prop
  | literal _ => False
  | operator op => depth < op.arity
  | groupOpen | groupClose | invalid _ => True

def Accepted (depth : Int) (ts : List Token) : Prop :=
  ∀ before t after, ts = before ++ t :: after → ¬ t.Refused (depthAfter depth before)

variable {depth : Int} {t : Token} {ts : List Token}

theorem accepted_nil (depth : Int) : Accepted depth [] := by
  intro before t after h
  simp at h

theorem accepted_cons_iff :
    Accepted depth (t :: ts) ↔ ¬ t.Refused depth ∧ Accepted (depth + t.depthChange) ts := by
  constructor
  · intro h
    refine ⟨h [] t ts rfl, fun before t' after hsplit ↦ ?_⟩
    exact h (t :: before) t' after (congrArg (t :: ·) hsplit)
  · intro h before t' after hsplit
    cases before with
    | nil =>
      cases hsplit
      exact h.1
    | cons _ before =>
      cases hsplit
      exact h.2 before t' after rfl

/-- Either all tokens are taken up, or there is a first one that is refused. -/
theorem accepted_or_refused (depth : Int) (ts : List Token) :
    Accepted depth ts ∨ ∃ before t after,
      ts = before ++ t :: after ∧ Accepted depth before ∧ t.Refused (depthAfter depth before) := by
  induction ts generalizing depth with
  | nil => exact .inl (accepted_nil depth)
  | cons t ts ih =>
    by_cases ht : t.Refused depth
    · exact .inr ⟨[], t, ts, rfl, accepted_nil depth, ht⟩
    rcases ih (depth + t.depthChange) with h | ⟨before, t', after, hsplit, hbefore, ht'⟩
    · exact .inl (accepted_cons_iff.2 ⟨ht, h⟩)
    · rw [hsplit]
      exact .inr ⟨t :: before, t', after, rfl, accepted_cons_iff.2 ⟨ht, hbefore⟩, ht'⟩

def statesTaken (ts : List Token) : Nat :=
  2 * (ts.countP isLiteral + ts.count (.operator .alternation) + ts.count (.operator .star))

theorem statesTaken_append (ts us : List Token) :
    statesTaken (ts ++ us) = statesTaken ts + statesTaken us := by
  simp only [statesTaken, List.countP_append, List.count_append]
  omega

end Token

open Token

namespace Expr

def step? : List Expr → Token → Option (List Expr)
  | es, .literal c => some (.literal c :: es)
  | right :: left :: es, .operator .concat => some (.concat left right :: es)
  | right :: left :: es, .operator .alternation => some (.alternation left right :: es)
  | inner :: es, .operator .star => some (.star inner :: es)
  | _, _ => none

def rpnAll : List Expr → List Token
  | [] => []
  | e :: es => rpnAll es ++ e.rpn

theorem rpnAll_of_step? {es es' : List Expr} {t : Token} (h : step? es t = some es') :
    rpnAll es' = rpnAll es ++ [t] := by
  cases t with
  | literal c =>
    cases h
    rfl
  | operator op =>
    rcases es with _ | ⟨right, _ | ⟨left, es⟩⟩ <;> cases op <;> cases h <;> simp [rpnAll, rpn]
  | groupOpen | groupClose | invalid => cases es <;> cases h

theorem step?_operator_eq_none_iff {es : List Expr} {op : Operator} :
    step? es (.operator op) = none ↔ es.length < op.arity := by
  rcases es with _ | ⟨right, _ | ⟨left, es⟩⟩
  · cases op <;> exact iff_of_true rfl (by decide)
  · cases op with
    | alternation | concat => exact iff_of_true rfl (Nat.lt_succ_self 1)
    | star => exact iff_of_false (Option.some_ne_none _) (Nat.lt_irrefl 1)
  · have htwo : ¬ (right :: left :: es).length < 2 := by simp
    cases op with
    | alternation | concat => exact iff_of_false (Option.some_ne_none _) htwo
    | star => exact iff_of_false (Option.some_ne_none _) fun h ↦ htwo (Nat.lt_succ_of_lt h)

theorem step?_eq_none_iff {es : List Expr} {t : Token} : step? es t = none ↔ t.Refused es.length := by
  cases t with
  | literal c => exact iff_of_false (Option.some_ne_none _) id
  | operator op => exact step?_operator_eq_none_iff.trans Int.ofNat_lt.symm
  | groupOpen | groupClose | invalid => exact iff_of_true (by cases es <;> rfl) trivial

theorem length_of_step? {es es' : List Expr} {t : Token} (h : step? es t = some es') :
    (es'.length : Int) = es.length + t.depthChange := by
  cases t with
  | literal c =>
    cases h
    simp [depthChange]
  | operator op =>
    rcases es with _ | ⟨right, _ | ⟨left, es⟩⟩ <;> cases op <;> cases h
    all_goals
      simp only [List.length_cons, depthChange, Operator.arity]
      omega
  | groupOpen | groupClose | invalid => cases es <;> cases h

theorem stateCount_eq (e : Expr) : e.stateCount = statesTaken e.rpn := by
  induction e with
  | literal c => rfl
  | concat left right ihl ihr =>
    rw [rpn, statesTaken_append, statesTaken_append, ← ihl, ← ihr]
    rfl
  | alternation left right ihl ihr =>
    rw [rpn, statesTaken_append, statesTaken_append, ← ihl, ← ihr]
    rfl
  | star inner ih =>
    rw [rpn, statesTaken_append, ← ih]
    rfl

end Expr

def BuildError.refusal (index : Nat) : Token → BuildError
  | .operator op => .missingOperand op index
  | token => .unexpectedToken token index

namespace Nfa

namespace Assembly

variable {n index : Nat} {es es' : List Expr} {t : Token}

/-- The construction that has built the automata of some trees, the first of them from `n` on. -/
def ofExprs (n : Nat) : List Expr → Assembly
  | [] => ⟨⟨n⟩, []⟩
  | e :: es =>
    let next := (ofExprs n es).allocator.next
    ⟨⟨next + e.stateCount⟩, e.thompson next :: (ofExprs n es).fragments⟩

theorem ofExprs_concat (n : Nat) (es : List Expr) (left right : Expr) :
    ⟨(ofExprs n (right :: left :: es)).allocator, (left.thompson (ofExprs n es).allocator.next).concat
      (right.thompson (ofExprs n (left :: es)).allocator.next) :: (ofExprs n es).fragments⟩ =
    ofExprs n (.concat left right :: es) := by
  simp only [ofExprs, Expr.thompson, Expr.stateCount, Nat.add_assoc]

theorem push_alternation (n : Nat) (es : List Expr) (left right : Expr) :
    push (ofExprs n (right :: left :: es)).allocator
        (alternation · · (left.thompson (ofExprs n es).allocator.next)
          (right.thompson (ofExprs n (left :: es)).allocator.next)) (ofExprs n es).fragments =
      ofExprs n (.alternation left right :: es) := by
  simp only [push, Allocator.fresh, ofExprs, Expr.thompson, Expr.stateCount, Nat.add_assoc]

/-- The construction builds the automata of the trees that its tokens stand for. -/
theorem step_ofExprs (n index : Nat) (es : List Expr) (t : Token) :
    step index (ofExprs n es) t =
      match Expr.step? es t with
      | some es' => .ok (ofExprs n es')
      | none => .error (.refusal index t) := by
  cases t with
  | literal c => rfl
  | operator op =>
    rcases es with _ | ⟨right, _ | ⟨left, es⟩⟩
    · cases op <;> rfl
    · cases op <;> rfl
    · cases op with
      | alternation => exact congrArg Except.ok (push_alternation n es left right)
      | concat => exact congrArg Except.ok (ofExprs_concat n es left right)
      | star => rfl
  | groupOpen | groupClose | invalid => cases es <;> rfl

theorem run_cons_ofExprs (h : Expr.step? es t = some es') (ts : List Token) :
    Scan.run step index (ofExprs n es) (t :: ts) = Scan.run step (index + 1) (ofExprs n es') ts := by
  refine Scan.run_cons_of_ok ?_ ts
  rw [step_ofExprs, h]

/-- Reading a tree in reverse Polish notation adds its automaton to those that are there. -/
theorem run_rpn (e : Expr) (n index : Nat) (es : List Expr) :
    Scan.run step index (ofExprs n es) e.rpn = (ofExprs n (e :: es), none) := by
  induction e generalizing index es with
  | literal c => exact run_cons_ofExprs rfl []
  | concat left right ihl ihr =>
    rw [Expr.rpn, List.append_assoc, Scan.run_append_of_none (ihl index es),
      Scan.run_append_of_none (ihr _ (left :: es))]
    exact run_cons_ofExprs rfl []
  | alternation left right ihl ihr =>
    rw [Expr.rpn, List.append_assoc, Scan.run_append_of_none (ihl index es),
      Scan.run_append_of_none (ihr _ (left :: es))]
    exact run_cons_ofExprs rfl []
  | star inner ih =>
    rw [Expr.rpn, Scan.run_append_of_none (ih index es)]
    exact run_cons_ofExprs rfl []

theorem allocator_ofExprs (n : Nat) (es : List Expr) :
    (ofExprs n es).allocator = ⟨n + statesTaken (Expr.rpnAll es)⟩ := by
  induction es with
  | nil => rfl
  | cons e es ih => rw [ofExprs, ih, e.stateCount_eq, Expr.rpnAll, statesTaken_append, Nat.add_assoc]

theorem length_fragments_ofExprs (n : Nat) (es : List Expr) :
    (ofExprs n es).fragments.length = es.length := by
  induction es with
  | nil => rfl
  | cons e es ih => rw [ofExprs, List.length_cons, List.length_cons, ih]

/-- Tokens of which none is refused leave as many trees as there are operands. -/
theorem exists_run_of_accepted (n index : Nat) (es : List Expr) {ts : List Token} (h : Accepted es.length ts) :
    ∃ es', Scan.run step index (ofExprs n es) ts = (ofExprs n es', none) ∧
      Expr.rpnAll es' = Expr.rpnAll es ++ ts ∧ (es'.length : Int) = depthAfter es.length ts := by
  induction ts generalizing index es with
  | nil => exact ⟨es, rfl, (List.append_nil _).symm, rfl⟩
  | cons t ts ih =>
    obtain ⟨ht, hts⟩ := accepted_cons_iff.1 h
    cases hes : Expr.step? es t with
    | none => exact absurd (Expr.step?_eq_none_iff.1 hes) ht
    | some next =>
      have hlength := Expr.length_of_step? hes
      rw [← hlength] at hts
      obtain ⟨es', hrun, hrpn, hdepth⟩ := ih (index + 1) next hts
      refine ⟨es', ?_, ?_, ?_⟩
      · rw [run_cons_ofExprs hes, hrun]
      · rw [hrpn, Expr.rpnAll_of_step? hes, List.append_assoc]
        rfl
      · rw [hdepth, hlength]
        rfl

theorem exists_run_of_refused (n index : Nat) (es : List Expr) {before : List Token}
    (h : Accepted es.length before) (ht : t.Refused (depthAfter es.length before)) (after : List Token) :
    ∃ es', Scan.run step index (ofExprs n es) (before ++ t :: after) =
        (ofExprs n es', some (.refusal (index + before.length) t)) ∧
      Expr.rpnAll es' = Expr.rpnAll es ++ before := by
  obtain ⟨es', hrun, hrpn, hdepth⟩ := exists_run_of_accepted n index es h
  have hstep : step (index + before.length) (ofExprs n es') t =
      .error (.refusal (index + before.length) t) := by
    rw [← hdepth] at ht
    rw [step_ofExprs, Expr.step?_eq_none_iff.2 ht]
  refine ⟨es', ?_, hrpn⟩
  rw [Scan.run_append_of_none hrun, Scan.run_cons_of_error hstep]

end Assembly

variable {allocator : Allocator} {rpn : List Token} {nfa : Nfa}

theorem ofRpn_expr (allocator : Allocator) (e : Expr) :
    ofRpn allocator e.rpn = (.ok (e.thompson allocator.next), ⟨allocator.next + e.stateCount⟩) := by
  have hrun : Scan.run Assembly.step 0 ⟨allocator, []⟩ e.rpn = _ := Assembly.run_rpn e allocator.next 0 []
  rw [ofRpn, hrun]
  rfl

theorem exists_ofRpn_of_accepted (allocator : Allocator) (h : Accepted 0 rpn) :
    ∃ es, Expr.rpnAll es = rpn ∧ (es.length : Int) = depthAfter 0 rpn ∧
      ofRpn allocator rpn = ((Assembly.ofExprs allocator.next es).finish,
        ⟨allocator.next + statesTaken rpn⟩) := by
  obtain ⟨es, hrun, hrpn, hdepth⟩ := Assembly.exists_run_of_accepted allocator.next 0 [] h
  have hrun' : Scan.run Assembly.step 0 ⟨allocator, []⟩ rpn = _ := hrun
  rw [Expr.rpnAll, List.nil_append] at hrpn
  refine ⟨es, hrpn, hdepth, ?_⟩
  rw [ofRpn, hrun']
  dsimp only
  rw [Assembly.allocator_ofExprs, hrpn]

theorem ofRpn_of_refused (allocator : Allocator) {before : List Token} {t : Token} (h : Accepted 0 before)
    (ht : t.Refused (depthAfter 0 before)) (after : List Token) :
    ofRpn allocator (before ++ t :: after) =
      (.error (.refusal before.length t), ⟨allocator.next + statesTaken before⟩) := by
  obtain ⟨es, hrun, hrpn⟩ := Assembly.exists_run_of_refused allocator.next 0 [] h ht after
  have hrun' : Scan.run Assembly.step 0 ⟨allocator, []⟩ (before ++ t :: after) = _ := hrun
  rw [Expr.rpnAll, List.nil_append] at hrpn
  rw [ofRpn, hrun', Nat.zero_add]
  dsimp only
  rw [Assembly.allocator_ofExprs, hrpn]

/-- Whatever the tokens are, the build gets as far as a number of trees or is refused one of the tokens. -/
theorem exists_ofRpn (allocator : Allocator) (rpn : List Token) :
    (∃ es, Expr.rpnAll es = rpn ∧
        (ofRpn allocator rpn).1 = (Assembly.ofExprs allocator.next es).finish) ∨
      ∃ t ∈ rpn, (∀ c, t ≠ .literal c) ∧
        ∃ position, (ofRpn allocator rpn).1 = .error (.refusal position t) := by
  rcases accepted_or_refused 0 rpn with h | ⟨before, t, after, rfl, hbefore, ht⟩
  · obtain ⟨es, hrpn, -, hbuilt⟩ := exists_ofRpn_of_accepted allocator h
    exact .inl ⟨es, hrpn, congrArg Prod.fst hbuilt⟩
  · refine .inr ⟨t, by simp, ?_, before.length, ?_⟩
    · intro c hc
      rw [hc] at ht
      exact ht
    · rw [ofRpn_of_refused allocator hbefore ht]

/-- An automaton is built of the trees in reverse Polish notation, and of nothing else. -/
theorem ofRpn_eq_ok_iff :
    (ofRpn allocator rpn).1 = .ok nfa ↔ ∃ e : Expr, rpn = e.rpn ∧ nfa = e.thompson allocator.next := by
  constructor
  · intro h
    rcases exists_ofRpn allocator rpn with ⟨es, rfl, hbuilt⟩ | ⟨t, -, -, position, hbuilt⟩
    · rw [h] at hbuilt
      rcases es with _ | ⟨e, _ | ⟨e', es⟩⟩
      · cases hbuilt
      · cases hbuilt
        exact ⟨e, rfl, rfl⟩
      · cases hbuilt
    · rw [h] at hbuilt
      cases hbuilt
  · rintro ⟨e, rfl, rfl⟩
    rw [ofRpn_expr]

/-- Whatever states were handed out before, a tree in reverse Polish notation is built into an automaton for
the words that the tree denotes, out of `e.stateCount` further states. Nothing else is built. -/
theorem ofRpn_recognizes (allocator : Allocator) :
    (∀ e : Expr, ∃ nfa, ofRpn allocator e.rpn = (.ok nfa, ⟨allocator.next + e.stateCount⟩) ∧
        ∀ w, nfa.accepts w = true ↔ e.Matches w) ∧
      ∀ rpn, (∃ nfa, (ofRpn allocator rpn).1 = .ok nfa) ↔ ∃ e : Expr, rpn = e.rpn := by
  refine ⟨fun e ↦ ?_, fun rpn ↦ ?_⟩
  · have haccepts := e.accepts_thompson_iff allocator.next
    exact ⟨e.thompson allocator.next, ofRpn_expr allocator e, haccepts⟩
  · simp only [ofRpn_eq_ok_iff]
    constructor
    · intro h
      obtain ⟨nfa, e, hrpn, -⟩ := h
      exact ⟨e, hrpn⟩
    · intro h
      obtain ⟨e, hrpn⟩ := h
      exact ⟨e.thompson allocator.next, e, hrpn, rfl⟩

/-- A build stops at the first token that is refused. If there is none, the operands that are left decide.
In any case two states have been taken for each literal, alternation and star up to where it stops. -/
theorem ofRpn_outcome (allocator : Allocator) (rpn : List Token) :
    (∃ before t after, rpn = before ++ t :: after ∧ Accepted 0 before ∧ t.Refused (depthAfter 0 before) ∧
        ofRpn allocator rpn =
          (.error (.refusal before.length t), ⟨allocator.next + statesTaken before⟩)) ∨
      Accepted 0 rpn ∧ ∃ built, ofRpn allocator rpn = (built, ⟨allocator.next + statesTaken rpn⟩) ∧
        (depthAfter 0 rpn = 0 ∧ built = .error .noFragment ∨
          depthAfter 0 rpn = 1 ∧ (∃ nfa, built = .ok nfa) ∨
            ∃ count : Nat, 1 < count ∧ depthAfter 0 rpn = count ∧
              built = .error (.danglingFragments count)) := by
  rcases accepted_or_refused 0 rpn with h | ⟨before, t, after, hsplit, hbefore, ht⟩
  · obtain ⟨es, -, hdepth, hbuilt⟩ := exists_ofRpn_of_accepted allocator h
    refine .inr ⟨h, _, hbuilt, ?_⟩
    rw [← hdepth]
    rcases es with _ | ⟨e, _ | ⟨e', es⟩⟩
    · exact .inl ⟨rfl, rfl⟩
    · exact .inr (.inl ⟨rfl, _, rfl⟩)
    · have hcount := Assembly.length_fragments_ofExprs allocator.next (e :: e' :: es)
      refine .inr (.inr ⟨_, ?_, rfl, ?_⟩)
      · simp
      · rw [← hcount]
        rfl
  · rw [hsplit]
    exact .inl ⟨before, t, after, rfl, hbefore, ht, ofRpn_of_refused allocator hbefore ht after⟩

end Nfa

end RegexCompiler
