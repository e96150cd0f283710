import RegexCompiler.Proofs.Compilation

namespace RegexCompiler

namespace Nfa

variable {nfa inner outer first second : Nfa} {lo mid hi n : Nat} {p q : State} {c d : Char}
variable {t t' : Transition} {states : StateSet}

section Parts

variable {start accept : State}

theorem mem_part_concat (ht : t ∈ (first.concat second).transitions) (hlabel : t.label ≠ .epsilon) :
    t ∈ first.transitions ∨ t ∈ second.transitions := by
  rcases mem_concat.1 ht with ht | rfl | ht
  · exact .inl ht
  · exact absurd rfl hlabel
  · exact .inr ht

theorem mem_part_alternation (ht : t ∈ (alternation start accept first second).transitions)
    (hlabel : t.label ≠ .epsilon) : t ∈ first.transitions ∨ t ∈ second.transitions := by
  rcases mem_alternation.1 ht with rfl | rfl | rfl | rfl | ht
  · exact absurd rfl hlabel
  · exact absurd rfl hlabel
  · exact absurd rfl hlabel
  · exact absurd rfl hlabel
  · exact ht

theorem mem_part_star (ht : t ∈ (star start accept inner).transitions) (hlabel : t.label ≠ .epsilon) :
    t ∈ inner.transitions := by
  rcases mem_star.1 ht with rfl | rfl | rfl | rfl | ht
  · exact absurd rfl hlabel
  · exact absurd rfl hlabel
  · exact absurd rfl hlabel
  · exact absurd rfl hlabel
  · exact ht

end Parts

section Enter

variable (hfirst : first.Within lo mid) (hsecond : second.Within mid hi)

include hsecond in
theorem enter_first_concat (ht : t ∈ (first.concat second).transitions)
    (htarget : State.Between lo mid t.target) : t ∈ first.transitions ∨ t.target = first.start := by
  rcases mem_concat.1 ht with ht | rfl | ht
  · exact .inl ht
  · exact (htarget.disjoint hsecond.start).elim
  · exact (htarget.disjoint (hsecond.transitions t ht).2).elim

include hfirst in
theorem enter_second_concat (ht : t ∈ (first.concat second).transitions)
    (htarget : State.Between mid hi t.target) : t ∈ second.transitions ∨ t.target = second.start := by
  rcases mem_concat.1 ht with ht | rfl | ht
  · exact ((hfirst.transitions t ht).2.disjoint htarget).elim
  · exact .inr rfl
  · exact .inl ht

include hsecond in
theorem enter_first_alternation (ht : t ∈ (alternation hi (hi + 1) first second).transitions)
    (htarget : State.Between lo mid t.target) : t ∈ first.transitions ∨ t.target = first.start := by
  have hmid : mid ≤ hi + 1 := Nat.le_succ_of_le (Nat.le_of_lt hsecond.lt)
  rcases mem_alternation.1 ht with rfl | rfl | rfl | rfl | ht | ht
  · exact .inr rfl
  · exact (htarget.disjoint hsecond.start).elim
  · exact absurd htarget (State.not_between hmid)
  · exact absurd htarget (State.not_between hmid)
  · exact .inl ht
  · exact (htarget.disjoint (hsecond.transitions t ht).2).elim

include hfirst in
theorem enter_second_alternation (ht : t ∈ (alternation hi (hi + 1) first second).transitions)
    (htarget : State.Between mid hi t.target) : t ∈ second.transitions ∨ t.target = second.start := by
  rcases mem_alternation.1 ht with rfl | rfl | rfl | rfl | ht | ht
  · exact (hfirst.start.disjoint htarget).elim
  · exact .inr rfl
  · exact absurd htarget (State.not_between (Nat.le_succ hi))
  · exact absurd htarget (State.not_between (Nat.le_succ hi))
  · exact ((hfirst.transitions t ht).2.disjoint htarget).elim
  · exact .inl ht

theorem enter_inner_star (ht : t ∈ (star hi (hi + 1) inner).transitions)
    (htarget : State.Between lo hi t.target) : t ∈ inner.transitions ∨ t.target = inner.start := by
  rcases mem_star.1 ht with rfl | rfl | rfl | rfl | ht
  · exact .inr rfl
  · exact absurd htarget (State.not_between (Nat.le_succ hi))
  · exact .inr rfl
  · exact absurd htarget (State.not_between (Nat.le_succ hi))
  · exact .inl ht

end Enter

/-- Where a symbol leads to, no other transition does, and nothing starts. -/
def EntersOnce (nfa : Nfa) : Prop :=
  ∀ t ∈ nfa.transitions, t.label ≠ .epsilon →
    t.target ≠ nfa.start ∧ ∀ t' ∈ nfa.transitions, t'.target = t.target → t' = t

namespace EntersOnce

/-- A part keeps its entries if it is entered from outside at its start only. -/
theorem of_part (hinner : inner.Within lo hi) (h : inner.EntersOnce)
    (hstart : State.Between lo hi outer.start → outer.start = inner.start)
    (henter : ∀ t' ∈ outer.transitions, State.Between lo hi t'.target →
      t' ∈ inner.transitions ∨ t'.target = inner.start)
    (ht : t ∈ inner.transitions) (hlabel : t.label ≠ .epsilon) :
    t.target ≠ outer.start ∧ ∀ t' ∈ outer.transitions, t'.target = t.target → t' = t := by
  obtain ⟨hne, honce⟩ := h t ht hlabel
  have hbetween := (hinner.transitions t ht).2
  refine ⟨fun heq ↦ ?_, fun t' ht' htarget ↦ ?_⟩
  · rw [heq] at hbetween hne
    exact hne (hstart hbetween)
  · rw [← htarget] at hbetween
    rcases henter t' ht' hbetween with hmem | hentry
    · exact honce t' hmem htarget
    · exact absurd (htarget.symm.trans hentry) hne

theorem ofLiteral (n : Nat) (c : Char) : (ofLiteral n (n + 1) c).EntersOnce := by
  intro t ht _
  obtain rfl := mem_ofLiteral.1 ht
  exact ⟨Nat.succ_ne_self n, fun t' ht' _ ↦ mem_ofLiteral.1 ht'⟩

theorem concat (hfirst : first.Within lo mid) (hsecond : second.Within mid hi)
    (h : first.EntersOnce) (h' : second.EntersOnce) : (first.concat second).EntersOnce := by
  have hstart : ¬ State.Between mid hi first.start := fun hstart ↦ hfirst.start.disjoint hstart
  intro t ht hlabel
  rcases mem_part_concat ht hlabel with ht | ht
  · exact of_part hfirst h (fun _ ↦ rfl) (fun t' ht' ↦ enter_first_concat hsecond ht') ht hlabel
  · exact of_part hsecond h' (fun hbetween ↦ absurd hbetween hstart)
      (fun t' ht' ↦ enter_second_concat hfirst ht') ht hlabel

theorem alternation (hfirst : first.Within lo mid) (hsecond : second.Within mid hi)
    (h : first.EntersOnce) (h' : second.EntersOnce) :
    (alternation hi (hi + 1) first second).EntersOnce := by
  have hstart : ¬ State.Between lo mid hi := State.not_between (Nat.le_of_lt hsecond.lt)
  have hstart' : ¬ State.Between mid hi hi := State.not_between (Nat.le_refl hi)
  intro t ht hlabel
  rcases mem_part_alternation ht hlabel with ht | ht
  · exact of_part hfirst h (fun hbetween ↦ absurd hbetween hstart)
      (fun t' ht' ↦ enter_first_alternation hsecond ht') ht hlabel
  · exact of_part hsecond h' (fun hbetween ↦ absurd hbetween hstart')
      (fun t' ht' ↦ enter_second_alternation hfirst ht') ht hlabel

theorem star (hinner : inner.Within lo hi) (h : inner.EntersOnce) : (star hi (hi + 1) inner).EntersOnce := by
  have hstart : ¬ State.Between lo hi hi := State.not_between (Nat.le_refl hi)
  intro t ht hlabel
  exact of_part hinner h (fun hbetween ↦ absurd hbetween hstart)
    (fun t' ht' ↦ enter_inner_star ht') (mem_part_star ht hlabel) hlabel

/-- No way without reading ends where a symbol leads to, unless it has begun there. -/
theorem eq_of_path_nil (h : nfa.EntersOnce) (ht : ⟨p, q, .symbol c⟩ ∈ nfa.transitions) {r : State}
    (hpath : Path nfa r [] q) : r = q := by
  rcases (Path.nil_iff.1 hpath).cases_tail with heq | ⟨q', -, hlast⟩
  · exact heq.symm
  -- A last step would be a second transition to where the symbol leads to.
  · obtain ⟨-, honce⟩ := h _ ht (by simp)
    cases honce _ hlast rfl

theorem not_mem_startSet (h : nfa.EntersOnce) (ht : ⟨p, q, .symbol c⟩ ∈ nfa.transitions) :
    q ∉ nfa.table.startSet := by
  intro hmem
  have heq := h.eq_of_path_nil ht (Table.mem_startSet_iff.1 hmem)
  exact (h _ ht (by simp)).1 heq.symm

theorem symbol_of_mem_next (h : nfa.EntersOnce) (ht : ⟨p, q, .symbol c⟩ ∈ nfa.transitions)
    (hmem : q ∈ nfa.table.next states d) : c = d := by
  obtain ⟨r, hr, hpath⟩ := Table.mem_closure_iff.1 hmem
  obtain rfl := h.eq_of_path_nil ht hpath
  obtain ⟨p', -, ht'⟩ := Table.mem_move_iff.1 hr
  obtain ⟨-, honce⟩ := h _ ht (by simp)
  cases honce _ ht' rfl
  rfl

end EntersOnce

/-- What a transition of the deterministic automaton leads to has a state in it that the symbol leads to. -/
theorem exists_symbol_mem_target {t : Dfa.Transition} (h : t ∈ nfa.determinize.transitions) :
    ∃ p q, ⟨p, q, .symbol t.symbol⟩ ∈ nfa.transitions ∧ q ∈ t.target := by
  obtain ⟨-, htarget, hempty⟩ := mem_determinize_transitions_iff.1 h
  obtain ⟨q', hq'⟩ := isEmpty_eq_false_iff.1 hempty
  rw [htarget] at hq' ⊢
  obtain ⟨q, hq, -⟩ := Table.mem_closure_iff.1 hq'
  obtain ⟨p, -, ht⟩ := Table.mem_move_iff.1 hq
  exact ⟨p, q, ht, Table.mem_closure_iff.2 ⟨q, hq, .refl q⟩⟩

namespace EntersOnce

theorem target_ne_start (h : nfa.EntersOnce) {t : Dfa.Transition} (ht : t ∈ nfa.determinize.transitions) :
    t.target ≠ nfa.determinize.start := by
  obtain ⟨p, q, hsymbol, hq⟩ := exists_symbol_mem_target ht
  intro heq
  rw [heq] at hq
  exact h.not_mem_startSet hsymbol hq

theorem symbol_eq_of_target_eq (h : nfa.EntersOnce) {t t' : Dfa.Transition}
    (ht : t ∈ nfa.determinize.transitions) (ht' : t' ∈ nfa.determinize.transitions)
    (htarget : t.target = t'.target) : t.symbol = t'.symbol := by
  obtain ⟨p, q, hsymbol, hq⟩ := exists_symbol_mem_target ht
  obtain ⟨-, htarget', -⟩ := mem_determinize_transitions_iff.1 ht'
  rw [htarget, htarget'] at hq
  exact h.symbol_of_mem_next hsymbol hq

end EntersOnce

end Nfa

theorem Expr.entersOnce_thompson (e : Expr) (n : Nat) : (e.thompson n).EntersOnce := by
  induction e generalizing n with
  | literal c => exact .ofLiteral n c
  | concat left right ihl ihr =>
    exact .concat (left.within_thompson n) (right.within_thompson _) (ihl n) (ihr _)
  | alternation left right ihl ihr =>
    exact .alternation (left.within_thompson n) (right.within_thompson _) (ihl n) (ihr _)
  | star inner ih => exact .star (inner.within_thompson n) (ih n)

namespace Compiler

/-- In the deterministic automaton of a source nothing leads back to the start, and all transitions to a
state read the same symbol. -/
theorem compile_target_symbol (compiler : Compiler) (source : String) (c : Compilation)
    (h : (compiler.compile source).1 = .ok c) :
    (∀ t ∈ c.dfa.transitions, t.target ≠ c.dfa.start) ∧
      ∀ t ∈ c.dfa.transitions, ∀ t' ∈ c.dfa.transitions, t.target = t'.target → t.symbol = t'.symbol := by
  obtain ⟨e, hnfa, hdfa⟩ := exists_thompson_of_compile h
  have honce := e.entersOnce_thompson 0
  rw [hdfa, hnfa]
  exact ⟨fun t ht ↦ honce.target_ne_start ht, fun t ht t' ht' ↦ honce.symbol_eq_of_target_eq ht ht'⟩

theorem compile_target_symbol_ab :
    ∃ c s s', (({} : Compiler).compile "(ab)*").1 = .ok c ∧ ⟨c.dfa.start, 'a', s⟩ ∈ c.dfa.transitions ∧
      ⟨s, 'b', s'⟩ ∈ c.dfa.transitions ∧ s' ≠ c.dfa.start ∧ s' ≠ s := by
  have hderives : Derives .expression (({} : Compiler).config.alphabet.tokenize "(ab)*")
      (.star (.concat (.literal 'a') (.literal 'b'))) :=
    .term (.factor (.star (.atom (.group (.term (.concat (.factor (.atom (.literal 'a')))
      (.atom (.literal 'b'))))))))
  obtain ⟨c, hc, hdfa⟩ := exists_compile_of_derives {} rfl hderives
  have hmatches : (Expr.star (.concat (.literal 'a') (.literal 'b'))).Matches ['a', 'b'] :=
    .repeat (.concat (.literal 'a') (.literal 'b')) (.stop _)
  have haccepts : c.dfa.accepts ['a', 'b'] = true := by
    rw [hdfa, Nfa.accepts_determinize]
    exact (Expr.accepts_thompson_iff _ 0 _).2 hmatches
  obtain ⟨s', hrun, -⟩ := (Dfa.accepts_iff _ _).1 haccepts
  obtain ⟨s, hrun, hb⟩ := Dfa.run_append_singleton_eq_some_iff.1
    (show c.dfa.run c.dfa.start (['a'] ++ ['b']) = some s' from hrun)
  obtain ⟨_, hnil, ha⟩ := Dfa.run_append_singleton_eq_some_iff.1
    (show c.dfa.run c.dfa.start ([] ++ ['a']) = some s from hrun)
  cases hnil
  have hmem : ∀ {p q : StateSet} {d : Char}, c.dfa.next p d = some q → ⟨p, d, q⟩ ∈ c.dfa.transitions := by
    rw [hdfa]
    exact Nfa.next_determinize_eq_some_iff.1
  obtain ⟨hstart, hsymbol⟩ := compile_target_symbol {} "(ab)*" c hc
  refine ⟨c, s, s', hc, hmem ha, hmem hb, hstart _ (hmem hb), fun heq ↦ ?_⟩
  have hab : 'b' = 'a' := hsymbol _ (hmem hb) _ (hmem ha) heq
  exact absurd hab (by decide)

end Compiler

end RegexCompiler
