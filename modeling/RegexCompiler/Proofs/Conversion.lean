import RegexCompiler.Expr.Grammar
import RegexCompiler.Proofs.Concatenation
import RegexCompiler.Proofs.Scan
import RegexCompiler.Token.Rpn

namespace RegexCompiler

open Token

/-- What binds tighter than all that a phrase can leave open at its end. -/
def Nonterminal.level : Nonterminal → Nat
  | expression => 1
  | term => 2
  | factor => 3
  | atom => 4

namespace Derives

variable {nt : Nonterminal} {ts : List Token} {e : Expr}

theorem exists_head (h : Derives nt ts e) : ∃ t, ts.head? = some t ∧ t.startsOperand = true := by
  induction h with
  | literal c => exact ⟨_, rfl, rfl⟩
  | group => exact ⟨_, rfl, rfl⟩
  | atom _ ih | factor _ ih | term _ ih => exact ih
  | star _ ih | concat _ _ ih _ | alternation _ _ ih _ =>
    obtain ⟨t, ht, hstarts⟩ := ih
    exact ⟨t, by simp [ht], hstarts⟩

theorem exists_last (h : Derives nt ts e) : ∃ t, ts.getLast? = some t ∧ t.endsOperand = true := by
  induction h with
  | literal c => exact ⟨_, rfl, rfl⟩
  | group => exact ⟨.groupClose, List.getLast?_concat, rfl⟩
  | star => exact ⟨.operator .star, List.getLast?_concat, rfl⟩
  | atom _ ih | factor _ ih | term _ ih => exact ih
  | concat _ _ _ ih =>
    obtain ⟨t, ht, hends⟩ := ih
    exact ⟨t, by simp [ht], hends⟩
  | alternation _ _ _ ih =>
    obtain ⟨t, ht, hends⟩ := ih
    exact ⟨t, by simp [ht, List.getLast?_cons], hends⟩

theorem invalid_not_mem (h : Derives nt ts e) (c : Char) : .invalid c ∉ ts := by
  induction h <;> simp_all

theorem insertConcatenation_append {us : List Token} {l r : Expr} (hl : Derives .term ts l)
    (hr : Derives .factor us r) :
    insertConcatenation (ts ++ us) =
      insertConcatenation ts ++ .operator .concat :: insertConcatenation us := by
  obtain ⟨left, hleft, hends⟩ := hl.exists_last
  obtain ⟨right, hright, hstarts⟩ := hr.exists_head
  rw [insertConcatenation_append_eq, seam_of_joins hleft hright hends hstarts, List.append_assoc]
  rfl

end Derives

theorem ParseError.ofInvalid_ne_emptyExpression (c : Char) (index : Nat) :
    ofInvalid c index ≠ .emptyExpression := by
  unfold ofInvalid
  split
  · exact ParseError.noConfusion
  · exact ParseError.noConfusion

namespace Conversion

variable {index : Nat} {output : List Token} {pending ops : List Operator}
variable {enclosing : List (List Operator)}

theorem emit_append (output : List Token) (ops ops' : List Operator) :
    emit output (ops ++ ops') = emit (emit output ops) ops' := by
  simp [emit]

theorem takeWhile_complete {op : Operator} (hpending : ∀ o ∈ pending.head?, o.precedence < op.precedence) :
    pending.takeWhile (fun o ↦ decide (op.precedence ≤ o.precedence)) = [] ∧
      pending.dropWhile (fun o ↦ decide (op.precedence ≤ o.precedence)) = pending := by
  cases pending with
  | nil => exact ⟨rfl, rfl⟩
  | cons o pending =>
    have ho : ¬ op.precedence ≤ o.precedence := Nat.not_le_of_lt (hpending o rfl)
    simp [ho]

/-- An operator completes those before it that bind at least as tightly. -/
theorem step_operator {op : Operator} (hops : ∀ o ∈ ops, op.precedence ≤ o.precedence)
    (hpending : ∀ o ∈ pending.head?, o.precedence < op.precedence) :
    step index ⟨output, ops ++ pending, enclosing⟩ (.operator op) =
      .ok ⟨emit output ops, op :: pending, enclosing⟩ := by
  have hops' : ∀ o ∈ ops, decide (op.precedence ≤ o.precedence) = true := by simpa using hops
  obtain ⟨htake, hdrop⟩ := takeWhile_complete hpending
  simp only [step]
  rw [List.takeWhile_append_of_pos hops', List.dropWhile_append_of_pos hops', htake, hdrop, List.append_nil]

/-- Tokens are converted to a tree except for its outermost operators, which wait for what comes next. They
bind at least as tightly as `level`, and those that wait already bind looser. -/
def Converts (level : Nat) (ts : List Token) (e : Expr) : Prop :=
  ∀ (index : Nat) (output : List Token) (pending : List Operator) (enclosing : List (List Operator)),
    (∀ o ∈ pending.head?, o.precedence < level) →
      ∃ output' ops, Scan.run step index ⟨output, pending, enclosing⟩ ts =
          (⟨output', ops ++ pending, enclosing⟩, none) ∧
        emit output' ops = e.rpn.reverse ++ output ∧ ∀ o ∈ ops, level ≤ o.precedence

namespace Converts

variable {level inner : Nat} {ts us : List Token} {e l r : Expr}

theorem literal (level : Nat) (c : Char) : Converts level [.literal c] (.literal c) := by
  intro index output pending enclosing _
  exact ⟨.literal c :: output, [], rfl, rfl, by simp⟩

theorem loosen (h : Converts (level + 1) ts e) : Converts level ts e := by
  intro index output pending enclosing hpending
  obtain ⟨output', ops, hrun, hemit, hops⟩ := h index output pending enclosing fun o ho ↦
    Nat.lt_succ_of_lt (hpending o ho)
  exact ⟨output', ops, hrun, hemit, fun o ho ↦ Nat.le_of_succ_le (hops o ho)⟩

theorem group (h : Converts inner ts e) (level : Nat) :
    Converts level (.groupOpen :: ts ++ [.groupClose]) e := by
  intro index output pending enclosing _
  obtain ⟨output', ops, hrun, hemit, -⟩ := h (index + 1) output [] (pending :: enclosing) (by simp)
  refine ⟨emit output' ops, [], ?_, hemit, by simp⟩
  rw [List.append_nil] at hrun
  rw [List.cons_append, Scan.run_cons_of_ok rfl, Scan.run_append_of_none hrun]
  rfl

theorem star (h : Converts Operator.star.precedence ts e) :
    Converts Operator.star.precedence (ts ++ [.operator .star]) (.star e) := by
  intro index output pending enclosing hpending
  obtain ⟨output', ops, hrun, hemit, hops⟩ := h index output pending enclosing hpending
  refine ⟨emit output' ops, [.star], ?_, ?_, by simp⟩
  · rw [Scan.run_append_of_none hrun, Scan.run_cons_of_ok (step_operator hops hpending)]
    rfl
  · rw [hemit]
    simp [emit, Expr.rpn]

/-- The right operand binds tighter than the operator: those of one precedence join to the left. -/
theorem binary (op : Operator) (hl : Converts op.precedence ts l) (hr : Converts (op.precedence + 1) us r)
    (he : e.rpn = l.rpn ++ r.rpn ++ [.operator op]) :
    Converts op.precedence (ts ++ .operator op :: us) e := by
  intro index output pending enclosing hpending
  obtain ⟨output', ops, hrun, hemit, hops⟩ := hl index output pending enclosing hpending
  obtain ⟨output'', ops', hrun', hemit', hops'⟩ :=
    hr (index + ts.length + 1) (emit output' ops) (op :: pending) enclosing (by simp)
  refine ⟨output'', ops' ++ [op], ?_, ?_, ?_⟩
  · rw [Scan.run_append_of_none hrun, Scan.run_cons_of_ok (step_operator hops hpending), hrun']
    simp
  · rw [emit_append, hemit', hemit, he]
    simp [emit]
  · intro o ho
    rcases List.mem_append.1 ho with ho | ho
    · exact Nat.le_of_succ_le (hops' o ho)
    · obtain rfl := List.mem_singleton.1 ho
      exact Nat.le_refl _

end Converts

theorem converts_insertConcatenation {nt : Nonterminal} {ts : List Token} {e : Expr} (h : Derives nt ts e) :
    Converts nt.level (insertConcatenation ts) e := by
  induction h with
  | literal c => exact .literal 4 c
  | group _ ih =>
    rw [insertConcatenation_group]
    exact ih.group 4
  | atom _ ih | factor _ ih | term _ ih => exact ih.loosen
  | star _ ih =>
    rw [insertConcatenation_star]
    exact ih.star
  | concat hl hr ihl ihr =>
    rw [hl.insertConcatenation_append hr]
    exact .binary .concat ihl ihr rfl
  | alternation _ _ ihl ihr =>
    rw [insertConcatenation_alternation]
    exact .binary .alternation ihl ihr rfl

def waiting (state : Conversion) : List Operator := state.pending ++ state.enclosing.flatten

/-- The tokens of a conversion with the positions they were read at. All that have been read, groups left
out, are in the output or wait, and whatever the output has before a literal was read before it. -/
structure Tracks (read output waiting : List (Token × Nat)) (state : Conversion) : Prop where
  output_eq : output.map Prod.fst = state.output
  waiting_eq : waiting.map Prod.fst = state.waiting.map .operator
  perm : (output ++ waiting).Perm (read.filter fun x ↦ !x.1.isGroup)
  ordered : output.Pairwise fun later earlier ↦ later.1.isLiteral = true → earlier.2 < later.2

namespace Tracks

variable {read output waiting : List (Token × Nat)} {state state' : Conversion} {t : Token}

theorem start : Tracks [] [] [] {} := ⟨rfl, rfl, .nil, .nil⟩

theorem literal (h : Tracks read output waiting state) (hread : ∀ x ∈ read, x.2 < index) (c : Char) :
    Tracks (read ++ [(.literal c, index)]) ((.literal c, index) :: output) waiting
      { state with output := .literal c :: state.output } where
  output_eq := congrArg (Token.literal c :: ·) h.output_eq
  waiting_eq := h.waiting_eq
  perm := by
    rw [List.filter_append]
    exact (h.perm.cons _).trans (List.perm_append_singleton _ _).symm
  ordered := by
    refine List.Pairwise.cons (fun x hx _ ↦ ?_) h.ordered
    have hmem := h.perm.mem_iff.1 (List.mem_append_left waiting hx)
    exact hread x (List.mem_filter.1 hmem).1

theorem operator (h : Tracks read output waiting state) (index : Nat) (op : Operator) :
    Tracks (read ++ [(.operator op, index)]) output ((.operator op, index) :: waiting)
      { state with pending := op :: state.pending } where
  output_eq := h.output_eq
  waiting_eq := congrArg (Token.operator op :: ·) h.waiting_eq
  perm := by
    rw [List.filter_append]
    exact List.perm_middle.trans ((h.perm.cons _).trans (List.perm_append_singleton _ _).symm)
  ordered := h.ordered

theorem group (h : Tracks read output waiting state) (index : Nat) (ht : t.isGroup = true) :
    Tracks (read ++ [(t, index)]) output waiting state where
  output_eq := h.output_eq
  waiting_eq := h.waiting_eq
  perm := by
    simp only [List.filter_append, List.filter_cons, ht, Bool.not_true, Bool.false_eq_true, if_false,
      List.filter_nil, List.append_nil]
    exact h.perm
  ordered := h.ordered

/-- Operators that wait move to the output, the first one first. -/
theorem emit {ops : List Operator} (h : Tracks read output waiting state) (state' : Conversion)
    (hsplit : state.waiting = ops ++ state'.waiting)
    (houtput : state'.output = Conversion.emit state.output ops) :
    ∃ output' waiting', Tracks read output' waiting' state' := by
  have hwaiting := h.waiting_eq
  rw [hsplit, List.map_append, List.map_eq_append_iff] at hwaiting
  obtain ⟨emitted, waiting', rfl, hemitted, hwaiting'⟩ := hwaiting
  have hliteral : ∀ x ∈ emitted, ¬ x.1.isLiteral = true := by
    intro x hx
    have hop := List.mem_map_of_mem (f := Prod.fst) hx
    rw [hemitted] at hop
    obtain ⟨op, -, hop⟩ := List.mem_map.1 hop
    rw [← hop]
    exact Bool.false_ne_true
  refine ⟨emitted.reverse ++ output, waiting', ?_, hwaiting', ?_, ?_⟩
  · rw [List.map_append, List.map_reverse, hemitted, h.output_eq, houtput, Conversion.emit]
  · have hperm := ((List.reverse_perm emitted).append_right output).trans List.perm_append_comm
    have hall := (hperm.append_right waiting').trans (.of_eq (List.append_assoc _ _ _))
    exact hall.trans h.perm
  · have hemit : ∀ x ∈ emitted.reverse, ∀ y : Token × Nat, x.1.isLiteral = true → y.2 < x.2 :=
      fun x hx y hx' ↦ absurd hx' (hliteral x (List.mem_reverse.1 hx))
    apply List.pairwise_append.2
    exact ⟨List.pairwise_of_forall_mem_list fun x hx y _ ↦ hemit x hx y, h.ordered,
      fun x hx y _ ↦ hemit x hx y⟩

theorem step (h : Tracks read output waiting state) (hread : ∀ x ∈ read, x.2 < index)
    (hstep : Conversion.step index state t = .ok state') :
    ∃ output' waiting', Tracks (read ++ [(t, index)]) output' waiting' state' := by
  obtain ⟨out, pending, enclosing⟩ := state
  cases t with
  | literal c =>
    cases hstep
    exact ⟨_, _, h.literal hread c⟩
  | operator op =>
    cases hstep
    let complete (earlier : Operator) : Bool := op.precedence ≤ earlier.precedence
    have hsplit : Conversion.waiting ⟨out, pending, enclosing⟩ =
        pending.takeWhile complete ++ (pending.dropWhile complete ++ enclosing.flatten) := by
      rw [← List.append_assoc, List.takeWhile_append_dropWhile]
      rfl
    obtain ⟨output', waiting', h'⟩ := h.emit
      ⟨Conversion.emit out (pending.takeWhile complete), pending.dropWhile complete, enclosing⟩ hsplit rfl
    exact ⟨_, _, h'.operator index op⟩
  | groupOpen =>
    cases hstep
    have hgroup := h.group index (t := .groupOpen) rfl
    exact ⟨output, waiting, hgroup.output_eq, hgroup.waiting_eq, hgroup.perm, hgroup.ordered⟩
  | groupClose =>
    cases enclosing with
    | nil => cases hstep
    | cons outer enclosing =>
      cases hstep
      exact (h.group index rfl).emit _ rfl rfl
  | invalid c => cases hstep

theorem run {ts : List Token} (h : Tracks read output waiting state) (hread : ∀ x ∈ read, x.2 < index)
    (hrun : Scan.run Conversion.step index state ts = (state', none)) :
    ∃ output' waiting', Tracks (read ++ ts.zipIdx index) output' waiting' state' := by
  induction ts generalizing index read output waiting state with
  | nil =>
    cases hrun
    rw [List.zipIdx_nil, List.append_nil]
    exact ⟨output, waiting, h⟩
  | cons t ts ih =>
    obtain ⟨next, hstep, hrest⟩ := Scan.exists_of_run_cons hrun
    obtain ⟨output', waiting', h'⟩ := h.step hread hstep
    have hread' : ∀ x ∈ read ++ [(t, index)], x.2 < index + 1 := by
      intro x hx
      rcases List.mem_append.1 hx with hx | hx
      · exact Nat.lt_succ_of_lt (hread x hx)
      · rw [List.mem_singleton.1 hx]
        exact Nat.lt_succ_self index
    have hrun' := ih h' hread' hrest
    rw [List.append_assoc] at hrun'
    exact hrun'

end Tracks

def groupDepth (depth : Nat) : List Token → Option Nat
  | [] => some depth
  | .groupOpen :: ts => groupDepth (depth + 1) ts
  | .groupClose :: ts =>
    match depth with
    | 0 => none
    | depth + 1 => groupDepth depth ts
  | _ :: ts => groupDepth depth ts

theorem groupDepth_of_run {state state' : Conversion} {ts : List Token}
    (h : Scan.run step index state ts = (state', none)) :
    groupDepth state.enclosing.length ts = some state'.enclosing.length := by
  induction ts generalizing index state with
  | nil =>
    cases h
    rfl
  | cons t ts ih =>
    obtain ⟨next, hstep, hrest⟩ := Scan.exists_of_run_cons h
    have hnext := ih hrest
    cases t with
    | literal | operator | groupOpen =>
      cases hstep
      exact hnext
    | groupClose =>
      cases henclosing : state.enclosing with
      | nil =>
        rw [step, henclosing] at hstep
        cases hstep
      | cons outer enclosing =>
        rw [step, henclosing] at hstep
        cases hstep
        exact hnext
    | invalid => cases hstep

/-- A conversion of valid tokens goes on as long as no group is closed that has not been opened. -/
theorem exists_run_of_groupDepth (index : Nat) (state : Conversion) {depth : Nat} {ts : List Token}
    (hinvalid : ∀ c, .invalid c ∉ ts) (hdepth : groupDepth state.enclosing.length ts = some depth) :
    ∃ state' : Conversion, Scan.run step index state ts = (state', none) ∧
      state'.enclosing.length = depth := by
  induction ts generalizing index state with
  | nil => exact ⟨state, rfl, Option.some.inj hdepth⟩
  | cons t ts ih =>
    have hrest : ∀ c, .invalid c ∉ ts := fun c hc ↦ hinvalid c (List.mem_cons_of_mem t hc)
    have hgo : ∀ next : Conversion, step index state t = .ok next →
        groupDepth next.enclosing.length ts = some depth →
        ∃ state' : Conversion, Scan.run step index state (t :: ts) = (state', none) ∧
          state'.enclosing.length = depth := by
      intro next hstep hnext
      rw [Scan.run_cons_of_ok hstep]
      exact ih (index + 1) next hrest hnext
    cases t with
    | literal | operator | groupOpen => exact hgo _ rfl hdepth
    | groupClose =>
      obtain ⟨output, pending, enclosing⟩ := state
      cases enclosing with
      | nil => cases hdepth
      | cons outer enclosing => exact hgo _ rfl hdepth
    | invalid c => exact absurd List.mem_cons_self (hinvalid c)

theorem groupDepth_append (depth : Nat) (xs ys : List Token) :
    groupDepth depth (xs ++ ys) = (groupDepth depth xs).bind fun depth ↦ groupDepth depth ys := by
  induction xs generalizing depth with
  | nil => rfl
  | cons x xs ih =>
    cases x with
    | literal | operator | groupOpen | invalid => exact ih _
    | groupClose =>
      cases depth with
      | zero => rfl
      | succ depth => exact ih depth

theorem groupDepth_insertConcatenation (depth : Nat) (ts : List Token) :
    groupDepth depth (insertConcatenation ts) = groupDepth depth ts := by
  induction ts generalizing depth with
  | nil => rfl
  | cons t ts ih =>
    have hseam (depth : Nat) :
        groupDepth depth (seam [t] ts ++ insertConcatenation ts) = groupDepth depth ts := by
      have hnone : groupDepth depth (seam [t] ts) = some depth := by
        unfold seam
        split
        · split <;> rfl
        · rfl
      rw [groupDepth_append, hnone]
      exact ih depth
    rw [insertConcatenation_cons]
    cases t with
    | literal | operator | groupOpen | invalid => exact hseam _
    | groupClose =>
      cases depth with
      | zero => rfl
      | succ depth => exact hseam depth

theorem step_ne_emptyExpression (index : Nat) (state : Conversion) (t : Token) :
    step index state t ≠ .error .emptyExpression := by
  intro h
  cases t with
  | literal | operator | groupOpen => cases h
  | groupClose =>
    rw [step] at h
    split at h
    · cases h
    · cases h
  | invalid c => exact ParseError.ofInvalid_ne_emptyExpression c index (Except.error.inj h)

end Conversion

/-- An expression is converted to its tree in reverse Polish notation. -/
theorem Derives.toRpn_eq {ts : List Token} {e : Expr} (h : Derives .expression ts e) :
    toRpn (insertConcatenation ts) = .ok e.rpn := by
  obtain ⟨output, ops, hrun, hemit, -⟩ := Conversion.converts_insertConcatenation h 0 [] [] [] (by simp)
  rw [List.append_nil] at hrun
  have hstart : Scan.run Conversion.step 0 {} (insertConcatenation ts) = (⟨output, ops, []⟩, none) := hrun
  rw [toRpn, hstart]
  simp [Conversion.finish, hemit]

def Expr.grouped : Expr → List Token
  | literal c => [.literal c]
  | concat left right => .groupOpen :: (left.grouped ++ right.grouped) ++ [.groupClose]
  | alternation left right =>
    .groupOpen :: (left.grouped ++ .operator .alternation :: right.grouped) ++ [.groupClose]
  | star inner => .groupOpen :: (inner.grouped ++ [.operator .star]) ++ [.groupClose]

theorem Derives.grouped (e : Expr) : Derives .atom e.grouped e := by
  induction e with
  | literal c => exact .literal c
  | concat left right ihl ihr => exact .group (.term (.concat (.factor (.atom ihl)) (.atom ihr)))
  | alternation left right ihl ihr =>
    exact .group (.alternation (.term (.factor (.atom ihl))) (.factor (.atom ihr)))
  | star inner ih => exact .group (.term (.factor (.star (.atom ih))))

/-- Conversion follows the grammar, so it undoes the printing of a tree, and what it makes of expressions
are all trees in reverse Polish notation. -/
theorem toRpn_inverts_grammar :
    (∀ ts e, Derives .expression ts e → toRpn (insertConcatenation ts) = .ok e.rpn) ∧
      (∀ e : Expr, toRpn (insertConcatenation e.grouped) = .ok e.rpn) ∧
        ∀ rpn, (∃ e : Expr, rpn = e.rpn) ↔
          ∃ ts e, Derives .expression ts e ∧ toRpn (insertConcatenation ts) = .ok rpn := by
  have hgrouped (e : Expr) : Derives .expression e.grouped e := .term (.factor (.atom (.grouped e)))
  refine ⟨fun ts e h ↦ h.toRpn_eq, fun e ↦ (hgrouped e).toRpn_eq, fun rpn ↦ ?_⟩
  constructor
  · intro h
    obtain ⟨e, rfl⟩ := h
    exact ⟨e.grouped, e, hgrouped e, (hgrouped e).toRpn_eq⟩
  · intro h
    obtain ⟨ts, e, hderives, hrpn⟩ := h
    rw [hderives.toRpn_eq] at hrpn
    exact ⟨e, (Except.ok.inj hrpn).symm⟩

namespace Token

variable {ts rpn : List Token}

theorem run_of_toRpn_eq_ok (h : toRpn ts = .ok rpn) :
    ∃ state : Conversion, Scan.run Conversion.step 0 {} ts = (state, none) ∧ state.enclosing = [] ∧
      rpn = (Conversion.emit state.output state.pending).reverse := by
  unfold toRpn at h
  split at h
  · rename_i state hrun
    unfold Conversion.finish at h
    split at h
    · rename_i henclosing
      cases h
      exact ⟨state, hrun, henclosing, rfl⟩
    · cases h
  · cases h

/-- The converted tokens with the positions they had before: each literal and operator once, and nothing
before a literal that did not stand before it. -/
theorem exists_placed_of_toRpn_eq_ok (h : toRpn ts = .ok rpn) :
    ∃ placed : List (Token × Nat), placed.map Prod.fst = rpn ∧
      placed.Perm (ts.zipIdx.filter fun x ↦ !x.1.isGroup) ∧
      placed.Pairwise fun earlier later ↦ later.1.isLiteral = true → earlier.2 < later.2 := by
  obtain ⟨state, hrun, henclosing, rfl⟩ := run_of_toRpn_eq_ok h
  obtain ⟨output, waiting, htracks⟩ := Conversion.Tracks.start.run (by simp) hrun
  have hwaiting : state.waiting = state.pending ++ [] := by rw [Conversion.waiting, henclosing]; rfl
  obtain ⟨output', waiting', hplaced⟩ := htracks.emit
    ⟨Conversion.emit state.output state.pending, [], []⟩ hwaiting rfl
  obtain rfl : waiting' = [] := List.map_eq_nil_iff.1 hplaced.waiting_eq
  refine ⟨output'.reverse, ?_, ?_, List.pairwise_reverse.2 hplaced.ordered⟩
  · rw [List.map_reverse, hplaced.output_eq]
  · have hperm := hplaced.perm
    rw [List.append_nil, List.nil_append] at hperm
    exact (List.reverse_perm _).trans hperm

/-- The conversion neither loses nor invents a token, and it drops the groups. -/
theorem perm_of_toRpn_eq_ok (h : toRpn ts = .ok rpn) : rpn.Perm (ts.filter fun t ↦ !t.isGroup) := by
  obtain ⟨placed, rfl, hperm, -⟩ := exists_placed_of_toRpn_eq_ok h
  have hmap := hperm.map Prod.fst
  rwa [← Function.comp_def (fun t : Token ↦ !t.isGroup) Prod.fst, ← List.filter_map,
    List.zipIdx_map_fst] at hmap

theorem groupDepth_of_toRpn_eq_ok (h : toRpn ts = .ok rpn) : Conversion.groupDepth 0 ts = some 0 := by
  obtain ⟨state, hrun, henclosing, rfl⟩ := run_of_toRpn_eq_ok h
  have hdepth := Conversion.groupDepth_of_run hrun
  rwa [henclosing] at hdepth

theorem exists_toRpn_of_groupDepth (hinvalid : ∀ c, .invalid c ∉ ts)
    (hdepth : Conversion.groupDepth 0 ts = some 0) : ∃ rpn, toRpn ts = .ok rpn := by
  obtain ⟨state, hrun, hlength⟩ := Conversion.exists_run_of_groupDepth 0 {} hinvalid hdepth
  have henclosing : state.enclosing = [] := List.length_eq_zero_iff.1 hlength
  refine ⟨(Conversion.emit state.output state.pending).reverse, ?_⟩
  rw [toRpn, hrun]
  simp only [Conversion.finish, henclosing]

/-- A conversion says that something is wrong with the tokens, never that there are none. -/
theorem toRpn_ne_emptyExpression (ts : List Token) : toRpn ts ≠ .error .emptyExpression := by
  intro h
  unfold toRpn at h
  split at h
  · unfold Conversion.finish at h
    split at h
    · cases h
    · cases h
  · rename_i state error hrun
    cases h
    obtain ⟨position, t, -, ht⟩ := Scan.exists_step_of_run hrun
    exact Conversion.step_ne_emptyExpression position state t ht

theorem countP_of_toRpn_eq_ok {p : Token → Bool} (hp : ∀ t, p t = true → t.isGroup = false)
    (h : toRpn ts = .ok rpn) : rpn.countP p = ts.countP p := by
  rw [(perm_of_toRpn_eq_ok h).countP_eq p, List.countP_filter]
  refine List.countP_congr fun t _ ↦ ?_
  simpa using hp t

end Token

end RegexCompiler
